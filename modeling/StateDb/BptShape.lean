/-
  StateDb/BptShape.lean
  =====================
  **What a subtree of the heap represents.**

  `Rep cfg Q h d lo hi p s`: following `p` in the heap `h` one finds, within
  depth `d`, a subtree in charge of the keys in `[lo, hi)`.  Its span `s` lists
  what it holds: its entries and its leaves from left to right, and the
  addresses it is made of.

  Two things make the shape of the source fit:

  * the list of an internal node is described up to its counter only.  What hangs
    behind (the middle node of an earlier split) must start with a key not below
    `hi`, which is what stops the searches (`Beyond`);
  * a subtree in charge of no key at all may be anything (`Void`).  This is the
    `m_lesser` of a new root that was grafted as a child: it aliases the left
    half, and no search ever takes it.

  `Q` is what every leaf is moreover required to satisfy.
-/
import StateDb.BptTree
import Mathlib.Data.List.Forall2

namespace StateDb.Bpt

open Lib Lib.SortedAssoc

variable {K V : Type} [LinearOrder K]

/-- What a subtree holds. -/
structure Span (K V : Type) where
  entries : List (K × V)
  leaves : List Nat
  foot : List Nat

/-- A separator: its list node, its key and the child at its right. -/
structure Sep (K : Type) where
  node : Nat
  key : K
  child : Nat

/-! ## Slots: the children of an internal node with the ranges they are in charge of -/

structure Slot (K : Type) where
  low : WithBot K
  high : WithTop K
  child : Nat

/-- The upper bound of the slot before `seps`. -/
def nextHigh (hi : WithTop K) : List (Sep K) → WithTop K
  | [] => hi
  | e :: _ => e.key

/-- The lower bound of the slot after `seps`. -/
def lastLow (lo : WithBot K) : List (Sep K) → WithBot K
  | [] => lo
  | e :: es => lastLow e.key es

/-- The child of the slot after `seps`. -/
def lastChild (p : Nat) : List (Sep K) → Nat
  | [] => p
  | e :: es => lastChild e.child es

/-- All slots of a node with lesser child `p`. -/
def slots (lo : WithBot K) (p : Nat) (hi : WithTop K) : List (Sep K) → List (Slot K)
  | [] => [⟨lo, hi, p⟩]
  | e :: es => ⟨lo, e.key, p⟩ :: slots e.key e.child hi es

/-- The slots that `seps` close on their right. -/
def slotsBefore (lo : WithBot K) (p : Nat) : List (Sep K) → List (Slot K)
  | [] => []
  | e :: es => ⟨lo, e.key, p⟩ :: slotsBefore e.key e.child es

/-- The slots that `seps` open. -/
def slotsAfter (hi : WithTop K) : List (Sep K) → List (Slot K)
  | [] => []
  | e :: es => ⟨e.key, nextHigh hi es, e.child⟩ :: slotsAfter hi es

omit [LinearOrder K] in
theorem slots_eq_cons (lo : WithBot K) (p : Nat) (hi : WithTop K) (seps : List (Sep K)) :
    slots lo p hi seps = ⟨lo, nextHigh hi seps, p⟩ :: slotsAfter hi seps := by
  induction seps generalizing lo p with
  | nil => rfl
  | cons e es ih => simp only [slots, slotsAfter, nextHigh, ih]

omit [LinearOrder K] in
/-- The slots around a cut of the separators. -/
theorem slots_append (lo : WithBot K) (p : Nat) (hi : WithTop K) (pre post : List (Sep K)) :
    slots lo p hi (pre ++ post) = slotsBefore lo p pre ++
      ⟨lastLow lo pre, nextHigh hi post, lastChild p pre⟩ :: slotsAfter hi post := by
  induction pre generalizing lo p with
  | nil => exact slots_eq_cons lo p hi post
  | cons e es ih => simp only [List.cons_append, slots, slotsBefore, lastLow, lastChild, ih]

omit [LinearOrder K] in
/-- A separator cuts the slots in those of the left and those of the right half. -/
theorem slots_split (lo : WithBot K) (p : Nat) (hi : WithTop K) (left : List (Sep K))
    (m : Sep K) (right : List (Sep K)) :
    slots lo p hi (left ++ m :: right) = slots lo p m.key left ++ slots m.key m.child hi right := by
  induction left generalizing lo p with
  | nil => rfl
  | cons e es ih => simp only [List.cons_append, slots, ih]

omit [LinearOrder K] in
theorem high_of_mem_slotsBefore {lo : WithBot K} {p : Nat} {seps : List (Sep K)} {sl : Slot K}
    (h : sl ∈ slotsBefore lo p seps) : ∃ e ∈ seps, sl.high = e.key := by
  induction seps generalizing lo p with
  | nil => cases h
  | cons e es ih =>
    rcases List.mem_cons.mp h with rfl | h
    · exact ⟨e, List.mem_cons_self, rfl⟩
    · obtain ⟨f, hf, heq⟩ := ih h
      exact ⟨f, List.mem_cons_of_mem _ hf, heq⟩

omit [LinearOrder K] in
theorem low_of_mem_slotsAfter {hi : WithTop K} {seps : List (Sep K)} {sl : Slot K}
    (h : sl ∈ slotsAfter hi seps) : ∃ e ∈ seps, sl.low = e.key := by
  induction seps with
  | nil => cases h
  | cons e es ih =>
    rcases List.mem_cons.mp h with rfl | h
    · exact ⟨e, List.mem_cons_self, rfl⟩
    · obtain ⟨f, hf, heq⟩ := ih h
      exact ⟨f, List.mem_cons_of_mem _ hf, heq⟩

/-! ## Lists of list nodes -/

/-- The list node `a` is on the list that starts at `r`. -/
inductive OnList (h : Heap K V) : Option Nat → Nat → Prop
  | first {a : Nat} : OnList h (some a) a
  | next {b a : Nat} {n : ListNode K} (cell : h.read b = some (.listNode n))
      (rest : OnList h n.mNext a) : OnList h (some b) a

/-- The list nodes of `seps` are linked from `r` on, and `t` comes behind. -/
def Linked (h : Heap K V) : Option Nat → List (Sep K) → Option Nat → Prop
  | r, [], t => r = t
  | r, e :: es, t => r = some e.node ∧
      ∃ next, h.read e.node = some (.listNode ⟨e.key, e.child, next⟩) ∧ Linked h next es t

/-- What hangs behind a list starts with a key not below `hi`. -/
def Beyond (h : Heap K V) (hi : WithTop K) (t : Option Nat) : Prop :=
  ∀ a, t = some a → ∃ n : ListNode K, h.read a = some (.listNode n) ∧ hi ≤ n.key

omit [LinearOrder K] in
theorem linked_append {h : Heap K V} {r t : Option Nat} {xs ys : List (Sep K)} :
    Linked h r (xs ++ ys) t ↔ ∃ m, Linked h r xs m ∧ Linked h m ys t := by
  induction xs generalizing r with
  | nil => simp [Linked]
  | cons e es ih =>
    simp only [List.cons_append, Linked, ih]
    constructor
    · rintro ⟨hr, next, hcell, m, h1, h2⟩
      exact ⟨m, ⟨hr, next, hcell, h1⟩, h2⟩
    · rintro ⟨m, ⟨hr, next, hcell, h1⟩, h2⟩
      exact ⟨hr, next, hcell, m, h1, h2⟩

omit [LinearOrder K] in
/-- A list is where it was when its nodes are. -/
theorem Linked.frame {h h' : Heap K V} {r t : Option Nat} {seps : List (Sep K)}
    (hl : Linked h r seps t) (hsame : ∀ e ∈ seps, h'.read e.node = h.read e.node) :
    Linked h' r seps t := by
  induction seps generalizing r with
  | nil => exact hl
  | cons e es ih =>
    obtain ⟨hr, next, hcell, hrest⟩ := hl
    refine ⟨hr, next, ?_, ih hrest fun f hf => hsame f (List.mem_cons_of_mem _ hf)⟩
    rw [hsame e List.mem_cons_self, hcell]

omit [LinearOrder K] in
theorem Linked.cell_of_mem {h : Heap K V} {r t : Option Nat} {seps : List (Sep K)}
    (hl : Linked h r seps t) {e : Sep K} (he : e ∈ seps) :
    ∃ n : ListNode K, h.read e.node = some (.listNode n) := by
  induction seps generalizing r with
  | nil => cases he
  | cons f fs ih =>
    obtain ⟨-, next, hcell, hrest⟩ := hl
    rcases List.mem_cons.mp he with rfl | he
    · exact ⟨_, hcell⟩
    · exact ih hrest he

omit [LinearOrder K] in
theorem Linked.read_of_mem {h : Heap K V} {r t : Option Nat} {seps : List (Sep K)}
    (hl : Linked h r seps t) {e : Sep K} (he : e ∈ seps) :
    ∃ next, h.read e.node = some (.listNode ⟨e.key, e.child, next⟩) := by
  induction seps generalizing r with
  | nil => cases he
  | cons f fs ih =>
    obtain ⟨-, next, hcell, hrest⟩ := hl
    rcases List.mem_cons.mp he with rfl | he
    · exact ⟨next, hcell⟩
    · exact ih hrest he

/-! ## Representation -/

/-- What every leaf is required to satisfy besides the map invariants, with the
closure the updates need. -/
structure LeafPolicy (K V : Type) [LinearOrder K] where
  holds : WithBot K → List (K × V) → Prop
  empty : holds ⊥ []
  singleton : ∀ (k : K) (v : V), holds k [(k, v)]
  upsert : ∀ (lo : WithBot K) (l : List (K × V)) (k : K) (v : V), Sorted l →
    (∀ q ∈ l, lo ≤ q.1) → lo ≤ k → holds lo l → holds lo (upsert k v l)
  split : ∀ (lo : WithBot K) (l : List (K × V)) (p : K × V) (r : List (K × V)),
    Sorted (l ++ p :: r) → (∀ q ∈ l ++ p :: r, lo ≤ q.1) → l ≠ [] → holds lo (l ++ p :: r) →
    holds lo l ∧ holds p.1 (p :: r)

/-- No requirement. -/
def LeafPolicy.any : LeafPolicy K V where
  holds _ _ := True
  empty := trivial
  singleton _ _ := trivial
  upsert _ _ _ _ _ _ _ _ := trivial
  split _ _ _ _ _ _ _ _ := ⟨trivial, trivial⟩

/-- A subtree in charge of no key. -/
def Void (lo : WithBot K) (hi : WithTop K) (s : Span K V) : Prop :=
  ∃ k : K, lo = k ∧ hi = k ∧ s = ⟨[], [], []⟩

structure IsLeaf (cap : Nat) (Q : LeafPolicy K V) (h : Heap K V) (lo : WithBot K)
    (hi : WithTop K) (p : Nat) (l : Leaf K V) : Prop where
  cell : h.read p = some (.leaf l)
  sorted : Sorted l.mList.nodes
  sized : l.mList.Sized
  capacity : l.mList.nodes.length ≤ cap
  above : ∀ q ∈ l.mList.nodes, lo ≤ q.1
  below : ∀ q ∈ l.mList.nodes, (q.1 : WithTop K) < hi
  policy : Q.holds lo l.mList.nodes

theorem IsLeaf.kept {cap : Nat} {Q : LeafPolicy K V} {h : Heap K V} {lo : WithBot K}
    {hi : WithTop K} {p : Nat} {l : Leaf K V} (hl : IsLeaf cap Q h lo hi p l) : l.mList.Kept cap :=
  ⟨hl.sorted, hl.sized, hl.capacity⟩

def leafSpan (p : Nat) (l : Leaf K V) : Span K V := ⟨l.mList.nodes, [p], [p]⟩

/-- An internal node with separators `seps`, and with children that satisfy `P`
in their slots. -/
structure IsInternal (cap : Nat) (h : Heap K V)
    (P : WithBot K → WithTop K → Nat → Span K V → Prop) (lo : WithBot K) (hi : WithTop K)
    (p : Nat) (n : Internal) (seps : List (Sep K)) (tail : Option Nat)
    (spans : List (Span K V)) : Prop where
  cell : h.read p = some (.internal n)
  linked : Linked h n.mRoot seps tail
  beyond : Beyond h hi tail
  size : n.mSize = seps.length
  nonempty : seps ≠ []
  capacity : seps.length ≤ cap
  increasing : seps.Pairwise (fun e f => e.key < f.key)
  above : ∀ e ∈ seps, lo ≤ e.key
  below : ∀ e ∈ seps, (e.key : WithTop K) < hi
  children : List.Forall₂ (fun sl s => P sl.low sl.high sl.child s)
    (slots lo n.mLesser hi seps) spans

def internalSpan (p : Nat) (seps : List (Sep K)) (spans : List (Span K V)) : Span K V :=
  ⟨spans.flatMap Span.entries, spans.flatMap Span.leaves,
    p :: (seps.map Sep.node ++ spans.flatMap Span.foot)⟩

/-- `p` is the root of a subtree that spans `s`, with children that satisfy `P`. -/
def HasInternal (cap : Nat) (h : Heap K V) (P : WithBot K → WithTop K → Nat → Span K V → Prop)
    (lo : WithBot K) (hi : WithTop K) (p : Nat) (s : Span K V) : Prop :=
  ∃ n seps tail spans, IsInternal cap h P lo hi p n seps tail spans ∧
    s = internalSpan p seps spans

def Rep (cfg : Config) (Q : LeafPolicy K V) (h : Heap K V) :
    Nat → WithBot K → WithTop K → Nat → Span K V → Prop
  | 0, _, _, _, _ => False
  | d + 1, lo, hi, p, s =>
      Void lo hi s ∨ (∃ l, IsLeaf cfg.maxSize Q h lo hi p l ∧ s = leafSpan p l) ∨
      HasInternal cfg.maxSize h (Rep cfg Q h d) lo hi p s

/-! ## General facts -/

section Forall₂

variable {α β : Type} {R R' : α → β → Prop}

theorem forall₂_imp_of_mem {xs : List α} {ys : List β} (h : List.Forall₂ R xs ys)
    (himp : ∀ x y, x ∈ xs → y ∈ ys → R x y → R' x y) : List.Forall₂ R' xs ys := by
  induction h with
  | nil => exact .nil
  | cons hab _ ih =>
    exact .cons (himp _ _ List.mem_cons_self List.mem_cons_self hab)
      (ih fun x y hx hy => himp x y (List.mem_cons_of_mem _ hx) (List.mem_cons_of_mem _ hy))

theorem forall₂_exists_of_mem_right {xs : List α} {ys : List β} (h : List.Forall₂ R xs ys)
    {y : β} (hy : y ∈ ys) : ∃ x ∈ xs, R x y := by
  induction h with
  | nil => cases hy
  | cons hab _ ih =>
    rcases List.mem_cons.mp hy with rfl | hy
    · exact ⟨_, List.mem_cons_self, hab⟩
    · obtain ⟨x, hx, hr⟩ := ih hy
      exact ⟨x, List.mem_cons_of_mem _ hx, hr⟩

theorem forall₂_append_left {xs xs' : List α} {ys : List β} :
    List.Forall₂ R (xs ++ xs') ys ↔
      ∃ as bs, ys = as ++ bs ∧ List.Forall₂ R xs as ∧ List.Forall₂ R xs' bs := by
  induction xs generalizing ys with
  | nil =>
    constructor
    · intro h
      exact ⟨[], ys, rfl, .nil, h⟩
    · rintro ⟨as, bs, rfl, ha, hb⟩
      cases ha
      exact hb
  | cons x xs ih =>
    constructor
    · intro h
      cases h with
      | cons hxy hrest =>
        obtain ⟨as, bs, rfl, ha, hb⟩ := ih.mp hrest
        exact ⟨_ :: as, bs, rfl, .cons hxy ha, hb⟩
    · rintro ⟨as, bs, rfl, ha, hb⟩
      cases ha with
      | cons hxy hrest => exact .cons hxy (ih.mpr ⟨_, bs, rfl, hrest, hb⟩)

end Forall₂

variable {cfg : Config} {Q : LeafPolicy K V}

theorem IsInternal.mono {cap : Nat} {h : Heap K V}
    {P P' : WithBot K → WithTop K → Nat → Span K V → Prop} {lo : WithBot K} {hi : WithTop K}
    {p : Nat} {n : Internal} {seps : List (Sep K)} {tail : Option Nat} {spans : List (Span K V)}
    (hn : IsInternal cap h P lo hi p n seps tail spans)
    (hP : ∀ lo hi q s, P lo hi q s → P' lo hi q s) :
    IsInternal cap h P' lo hi p n seps tail spans :=
  { hn with children := hn.children.imp fun _ _ => hP _ _ _ _ }

theorem HasInternal.mono {cap : Nat} {h : Heap K V}
    {P P' : WithBot K → WithTop K → Nat → Span K V → Prop} {lo : WithBot K} {hi : WithTop K}
    {p : Nat} {s : Span K V} (hn : HasInternal cap h P lo hi p s)
    (hP : ∀ lo hi q s, P lo hi q s → P' lo hi q s) : HasInternal cap h P' lo hi p s := by
  obtain ⟨n, seps, tail, spans, hn, rfl⟩ := hn
  exact ⟨n, seps, tail, spans, hn.mono hP, rfl⟩

theorem IsInternal.size_ne_zero {cap : Nat} {h : Heap K V}
    {P : WithBot K → WithTop K → Nat → Span K V → Prop} {lo : WithBot K} {hi : WithTop K}
    {p : Nat} {n : Internal} {seps : List (Sep K)} {tail : Option Nat} {spans : List (Span K V)}
    (hn : IsInternal cap h P lo hi p n seps tail spans) : n.mSize ≠ 0 := by
  rw [hn.size]
  intro hzero
  exact hn.nonempty (List.length_eq_zero_iff.mp hzero)

/-- A node has children, which take some depth. -/
theorem HasInternal.not_zero {cap : Nat} {h : Heap K V} {lo : WithBot K} {hi : WithTop K}
    {p : Nat} {s : Span K V} : ¬ HasInternal cap h (Rep cfg Q h 0) lo hi p s := by
  rintro ⟨n, seps, tail, spans, hn, -⟩
  have hch := hn.children
  rw [slots_eq_cons] at hch
  cases hch with
  | cons hfirst _ => exact hfirst

theorem Rep.succ {h : Heap K V} {d : Nat} {lo : WithBot K} {hi : WithTop K} {p : Nat}
    {s : Span K V} (hr : Rep cfg Q h d lo hi p s) : Rep cfg Q h (d + 1) lo hi p s := by
  induction d generalizing lo hi p s with
  | zero => exact hr.elim
  | succ d ih =>
    rcases hr with hv | hl | hn
    · exact Or.inl hv
    · exact Or.inr (Or.inl hl)
    · exact Or.inr (Or.inr (hn.mono fun _ _ _ _ => ih))

/-- More depth never hurts. -/
theorem Rep.mono {h : Heap K V} {d d' : Nat} (hd : d ≤ d') {lo : WithBot K} {hi : WithTop K}
    {p : Nat} {s : Span K V} (hr : Rep cfg Q h d lo hi p s) : Rep cfg Q h d' lo hi p s := by
  induction hd with
  | refl => exact hr
  | step _ ih => exact ih.succ

/-! ## Entries are sorted and in range -/

/-- Sorted entries within `[lo, hi)`. -/
def InRange (lo : WithBot K) (hi : WithTop K) (l : List (K × V)) : Prop :=
  Sorted l ∧ (∀ q ∈ l, lo ≤ q.1) ∧ ∀ q ∈ l, (q.1 : WithTop K) < hi

theorem inRange_flatMap {lo : WithBot K} {hi : WithTop K} {p : Nat} {seps : List (Sep K)}
    {spans : List (Span K V)} (hinc : seps.Pairwise (fun e f => e.key < f.key))
    (habove : ∀ e ∈ seps, lo ≤ e.key) (hbelow : ∀ e ∈ seps, (e.key : WithTop K) < hi)
    (hch : List.Forall₂ (fun sl s => InRange sl.low sl.high s.entries) (slots lo p hi seps) spans) :
    InRange lo hi (spans.flatMap Span.entries) := by
  induction seps generalizing lo p spans with
  | nil =>
    simp only [slots] at hch
    cases hch with
    | cons hs hnil =>
      cases hnil
      simpa using hs
  | cons e es ih =>
    simp only [slots] at hch
    cases hch with
    | cons hs hrest =>
      rename_i s rest
      obtain ⟨he, hes⟩ := List.pairwise_cons.mp hinc
      have htail := ih hes (fun f hf => WithBot.coe_le_coe.mpr (he f hf).le)
        (fun f hf => hbelow f (List.mem_cons_of_mem _ hf)) hrest
      obtain ⟨hsort, hlow, hhigh⟩ := hs
      obtain ⟨hsort', hlow', hhigh'⟩ := htail
      rw [List.flatMap_cons]
      refine ⟨sorted_append.mpr ⟨hsort, hsort', ?_⟩, ?_, ?_⟩
      · intro q hq r hr
        exact lt_of_lt_of_le (WithTop.coe_lt_coe.mp (hhigh q hq))
          (WithBot.coe_le_coe.mp (hlow' r hr))
      · intro q hq
        rcases List.mem_append.mp hq with hq | hq
        · exact hlow q hq
        · exact (habove e List.mem_cons_self).trans (hlow' q hq)
      · intro q hq
        rcases List.mem_append.mp hq with hq | hq
        · exact (hhigh q hq).trans (hbelow e List.mem_cons_self)
        · exact hhigh' q hq

theorem Rep.inRange {h : Heap K V} {d : Nat} {lo : WithBot K} {hi : WithTop K} {p : Nat}
    {s : Span K V} (hr : Rep cfg Q h d lo hi p s) : InRange lo hi s.entries := by
  induction d generalizing lo hi p s with
  | zero => exact hr.elim
  | succ d ih =>
    rcases hr with ⟨k, -, -, rfl⟩ | ⟨l, hl, rfl⟩ | ⟨n, seps, tail, spans, hn, rfl⟩
    · simp [InRange, sorted_nil]
    · exact ⟨hl.sorted, hl.above, hl.below⟩
    · exact inRange_flatMap hn.increasing hn.above hn.below
        (hn.children.imp fun _ _ hc => ih hc)

/-! ## Frames -/

/-- Every list node keeps its key. -/
def KeysKept (h h' : Heap K V) : Prop :=
  ∀ a (n : ListNode K), h.read a = some (.listNode n) →
    ∃ n' : ListNode K, h'.read a = some (.listNode n') ∧ n'.key = n.key

theorem Beyond.frame {h h' : Heap K V} (hk : KeysKept h h') {hi : WithTop K} {t : Option Nat}
    (hb : Beyond h hi t) : Beyond h' hi t := by
  intro a ha
  obtain ⟨n, hn, hle⟩ := hb a ha
  obtain ⟨n', hn', heq⟩ := hk a n hn
  exact ⟨n', hn', by rw [heq]; exact hle⟩

theorem IsLeaf.frame {cap : Nat} {h h' : Heap K V} {lo : WithBot K} {hi : WithTop K} {p : Nat}
    {l : Leaf K V} (hl : IsLeaf cap Q h lo hi p l) (hsame : h'.read p = h.read p) :
    IsLeaf cap Q h' lo hi p l :=
  { hl with cell := hsame.trans hl.cell }

/-- A node is where it was when its cells are, and its children with it. -/
theorem HasInternal.frame {cap : Nat} {h h' : Heap K V}
    {P P' : WithBot K → WithTop K → Nat → Span K V → Prop} (hk : KeysKept h h') {lo : WithBot K}
    {hi : WithTop K} {p : Nat} {s : Span K V} (hr : HasInternal cap h P lo hi p s)
    (hsame : ∀ a ∈ s.foot, h'.read a = h.read a)
    (hP : ∀ lo hi q t, P lo hi q t → (∀ a ∈ t.foot, h'.read a = h.read a) → P' lo hi q t) :
    HasInternal cap h' P' lo hi p s := by
  obtain ⟨n, seps, tail, spans, hn, rfl⟩ := hr
  have hfoot : ∀ a ∈ seps.map Sep.node ++ spans.flatMap Span.foot, h'.read a = h.read a :=
    fun a ha => hsame a (List.mem_cons_of_mem _ ha)
  refine ⟨n, seps, tail, spans, { hn with
    cell := (hsame p List.mem_cons_self).trans hn.cell
    linked := hn.linked.frame fun e he =>
      hfoot _ (List.mem_append_left _ (List.mem_map_of_mem he))
    beyond := hn.beyond.frame hk
    children := forall₂_imp_of_mem hn.children fun sl t _ ht hc => hP _ _ _ _ hc ?_ }, rfl⟩
  intro a ha
  exact hfoot a (List.mem_append_right _ (List.mem_flatMap.mpr ⟨t, ht, ha⟩))

/-- A subtree is where it was when its cells are. -/
theorem Rep.frame {h h' : Heap K V} (hk : KeysKept h h') {d : Nat} {lo : WithBot K}
    {hi : WithTop K} {p : Nat} {s : Span K V} (hr : Rep cfg Q h d lo hi p s)
    (hsame : ∀ a ∈ s.foot, h'.read a = h.read a) : Rep cfg Q h' d lo hi p s := by
  induction d generalizing lo hi p s with
  | zero => exact hr.elim
  | succ d ih =>
    rcases hr with hv | ⟨l, hl, rfl⟩ | hn
    · exact Or.inl hv
    · exact Or.inr (Or.inl ⟨l, hl.frame (hsame p List.mem_cons_self), rfl⟩)
    · exact Or.inr (Or.inr (hn.frame hk hsame fun _ _ _ _ => ih))

/-- A subtree is made of allocated cells. -/
theorem Rep.lt_fresh {h : Heap K V} {d : Nat} {lo : WithBot K} {hi : WithTop K} {p : Nat}
    {s : Span K V} (hr : Rep cfg Q h d lo hi p s) : ∀ a ∈ s.foot, a < h.fresh := by
  induction d generalizing lo hi p s with
  | zero => exact hr.elim
  | succ d ih =>
    intro a ha
    rcases hr with ⟨k, -, -, rfl⟩ | ⟨l, hl, rfl⟩ | ⟨n, seps, tail, spans, hn, rfl⟩
    · cases ha
    · rw [List.mem_singleton.mp ha]
      exact CellStore.lt_fresh_of_read hl.cell
    · rcases List.mem_cons.mp ha with rfl | ha
      · exact CellStore.lt_fresh_of_read hn.cell
      · rcases List.mem_append.mp ha with ha | ha
        · obtain ⟨e, he, rfl⟩ := List.mem_map.mp ha
          obtain ⟨m, hm⟩ := hn.linked.cell_of_mem he
          exact CellStore.lt_fresh_of_read hm
        · obtain ⟨s', hs', ha⟩ := List.mem_flatMap.mp ha
          obtain ⟨sl, -, hc⟩ := forall₂_exists_of_mem_right hn.children hs'
          exact ih hc a ha

end StateDb.Bpt
