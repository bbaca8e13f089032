/-
  StateDb/BptSearch.lean
  ======================
  **Reading the tree**: routing, `get` and `iterate`.

  `get_child_ge` takes the child after the separators not above the key
  (`getChildGe_spec`); hence `get` answers with the lookup in the entries of the
  subtree (`getValPtr_spec`).  `iterate` ignores the separators: it goes down the
  `m_lesser` pointers and then along the leaf chain, so it needs the chain to run
  through the leaves of the subtree in order (`LeafChain`).
-/
import StateDb.BptShape

namespace StateDb.Bpt

open Lib Lib.SortedAssoc

variable {K V : Type} [LinearOrder K] {cfg : Config} {Q : LeafPolicy K V}

/-! ## Dereferencing a known cell -/

omit [LinearOrder K] in
theorem derefLeaf_eq {h : Heap K V} {a : Nat} {l : Leaf K V} (hc : h.read a = some (.leaf l)) :
    derefLeaf h a = .ok l := by
  simp [derefLeaf, hc]

omit [LinearOrder K] in
theorem derefInternal_eq {h : Heap K V} {a : Nat} {n : Internal}
    (hc : h.read a = some (.internal n)) : derefInternal h a = .ok n := by
  simp [derefInternal, hc]

omit [LinearOrder K] in
theorem derefListNode_eq {h : Heap K V} {a : Nat} {n : ListNode K}
    (hc : h.read a = some (.listNode n)) : derefListNode h a = .ok n := by
  simp [derefListNode, hc]

omit [LinearOrder K] in
theorem derefListNode_ok {h : Heap K V} {a : Nat} {l : ListNode K}
    (hd : derefListNode h a = .ok l) :
    h.read a = some (.listNode l) := by
  unfold derefListNode at hd
  split at hd
  · rename_i hread
    rw [hread, Outcome.ok.inj hd]
  · cases hd
  · cases hd

omit [LinearOrder K] in
theorem derefLeaf_ok {h : Heap K V} {a : Nat} {l : Leaf K V} (hd : derefLeaf h a = .ok l) :
    h.read a = some (.leaf l) := by
  unfold derefLeaf at hd
  split at hd
  · rename_i hread
    rw [hread, Outcome.ok.inj hd]
  · cases hd
  · cases hd

omit [LinearOrder K] in
theorem derefInternal_ok {h : Heap K V} {a : Nat} {n : Internal} (hd : derefInternal h a = .ok n) :
    h.read a = some (.internal n) := by
  unfold derefInternal at hd
  split at hd
  · rename_i hread
    rw [hread, Outcome.ok.inj hd]
  · cases hd
  · cases hd

omit [LinearOrder K] in
theorem isLeaf_of_leaf {h : Heap K V} {a : Nat} {l : Leaf K V} (hc : h.read a = some (.leaf l)) :
    isLeaf h a = .ok true := by
  simp [isLeaf, hc]

omit [LinearOrder K] in
theorem isLeaf_of_internal {h : Heap K V} {a : Nat} {n : Internal}
    (hc : h.read a = some (.internal n)) : isLeaf h a = .ok false := by
  simp [isLeaf, hc]

omit [LinearOrder K] in
theorem leaf_of_isLeaf {h : Heap K V} {a : Nat} (hl : isLeaf h a = .ok true) :
    ∃ l : Leaf K V, h.read a = some (.leaf l) := by
  unfold isLeaf at hl
  split at hl
  · rename_i l hread
    exact ⟨l, hread⟩
  all_goals cases hl

omit [LinearOrder K] in
theorem internal_of_isLeaf {h : Heap K V} {a : Nat} (hl : isLeaf h a = .ok false) :
    ∃ n : Internal, h.read a = some (.internal n) := by
  unfold isLeaf at hl
  split at hl
  case h_2 n hread => exact ⟨n, hread⟩
  all_goals cases hl

/-! ## Routing -/

/-- The separators cut at a key: those not above it, and those above it. -/
structure CutAt (key : K) (seps pre post : List (Sep K)) : Prop where
  eq : seps = pre ++ post
  before : ∀ e ∈ pre, e.key ≤ key
  after : ∀ e ∈ post, key < e.key

theorem exists_cutAt (key : K) {seps : List (Sep K)}
    (hinc : seps.Pairwise (fun e f => e.key < f.key)) : ∃ pre post, CutAt key seps pre post := by
  induction seps with
  | nil => exact ⟨[], [], rfl, by simp, by simp⟩
  | cons e es ih =>
    obtain ⟨he, hes⟩ := List.pairwise_cons.mp hinc
    by_cases hk : e.key ≤ key
    · obtain ⟨pre, post, hcut⟩ := ih hes
      refine ⟨e :: pre, post, by rw [hcut.eq]; rfl, ?_, hcut.after⟩
      intro f hf
      rcases List.mem_cons.mp hf with rfl | hf
      · exact hk
      · exact hcut.before f hf
    · have hlt : key < e.key := not_le.mp hk
      refine ⟨[], e :: es, rfl, by simp, ?_⟩
      intro f hf
      rcases List.mem_cons.mp hf with rfl | hf
      · exact hlt
      · exact hlt.trans (he f hf)

theorem lastLow_le {key : K} {lo : WithBot K} {pre : List (Sep K)} (hlo : lo ≤ key)
    (hpre : ∀ e ∈ pre, e.key ≤ key) : lastLow lo pre ≤ key := by
  induction pre generalizing lo with
  | nil => exact hlo
  | cons e es ih =>
    exact ih (WithBot.coe_le_coe.mpr (hpre e List.mem_cons_self))
      fun f hf => hpre f (List.mem_cons_of_mem _ hf)

theorem lt_nextHigh {key : K} {hi : WithTop K} {post : List (Sep K)} (hhi : (key : WithTop K) < hi)
    (hpost : ∀ e ∈ post, key < e.key) : (key : WithTop K) < nextHigh hi post := by
  cases post with
  | nil => exact hhi
  | cons e es => exact WithTop.coe_lt_coe.mpr (hpost e List.mem_cons_self)

/-- What hangs behind the list of a node stops a search for a key below `hi`. -/
theorem Beyond.stops {h : Heap K V} {hi : WithTop K} {tail : Option Nat} (hb : Beyond h hi tail)
    {key : K} (hkey : (key : WithTop K) < hi) :
    ∀ a, tail = some a → ∃ n : ListNode K, h.read a = some (.listNode n) ∧ key < n.key := by
  intro a ha
  obtain ⟨n, hn, hle⟩ := hb a ha
  exact ⟨n, hn, WithTop.coe_lt_coe.mp (lt_of_lt_of_le hkey hle)⟩

/-- The last list node of `node :: seps`. -/
def lastNode (node : Nat) : List (Sep K) → Nat
  | [] => node
  | e :: es => lastNode e.node es

omit [LinearOrder K] in
theorem lastNode_mem (e : Sep K) (es : List (Sep K)) :
    lastNode e.node es ∈ (e :: es).map Sep.node := by
  induction es generalizing e with
  | nil => simp [lastNode]
  | cons f fs ih => exact List.mem_cons_of_mem _ (ih f)

omit [LinearOrder K] in
/-- The last list node of a non-empty list, and what is linked behind it. -/
theorem Linked.last {h : Heap K V} {tail : Option Nat} {e : Sep K} {pre post : List (Sep K)}
    (hl : Linked h (some e.node) (e :: (pre ++ post)) tail) :
    ∃ m : ListNode K, h.read (lastNode e.node pre) = some (.listNode m) ∧
      m.val = lastChild e.child pre ∧ Linked h m.mNext post tail := by
  induction pre generalizing e with
  | nil =>
    obtain ⟨-, next, hcell, hrest⟩ := hl
    exact ⟨_, hcell, rfl, hrest⟩
  | cons f fs ih =>
    obtain ⟨-, next, -, hrest⟩ := hl
    have hnext : next = some f.node := hrest.1
    exact ih (hnext ▸ hrest)

/-- `get_child_ln_ge` stops at the last separator not above the key. -/
theorem getChildLnGe_spec {h : Heap K V} {key : K} {tail : Option Nat} {e : Sep K}
    {pre post : List (Sep K)} (hl : Linked h (some e.node) (e :: (pre ++ post)) tail)
    (hpre : ∀ f ∈ pre, f.key ≤ key) (hpost : ∀ f ∈ post, key < f.key)
    (htail : ∀ a, tail = some a → ∃ n : ListNode K, h.read a = some (.listNode n) ∧ key < n.key) :
    Returns (fun fuel => getChildLnGe fuel h e.node key) (lastNode e.node pre) := by
  induction pre generalizing e with
  | nil =>
    obtain ⟨-, next, hcell, hrest⟩ := hl
    refine Returns.of_succ ⟨0, ?_⟩
    intro fuel _
    simp only [getChildLnGe, derefListNode_eq hcell, Outcome.ok_bind, lastNode]
    cases post with
    | nil =>
      cases next with
      | none => rfl
      | some a =>
        obtain ⟨n, hn, hlt⟩ := htail a hrest.symm
        simp [derefListNode_eq hn, hlt]
    | cons f fs =>
      obtain ⟨hnext, next', hcell', -⟩ := hrest
      subst hnext
      simp [derefListNode_eq hcell', hpost f List.mem_cons_self]
  | cons f fs ih =>
    obtain ⟨-, next, hcell, hrest⟩ := hl
    have hnext : next = some f.node := hrest.1
    subst hnext
    obtain ⟨-, next', hcell', -⟩ := id hrest
    have hle : ¬ key < f.key := not_lt.mpr (hpre f List.mem_cons_self)
    refine Returns.of_succ ?_
    simp only [getChildLnGe, derefListNode_eq hcell, derefListNode_eq hcell', Outcome.ok_bind,
      if_neg hle]
    exact ih hrest fun g hg => hpre g (List.mem_cons_of_mem _ hg)

/-- `get_child_ge` takes the child after the separators not above the key. -/
theorem getChildGe_spec {cap : Nat} {h : Heap K V}
    {P : WithBot K → WithTop K → Nat → Span K V → Prop} {lo : WithBot K} {hi : WithTop K}
    {p : Nat} {n : Internal} {seps pre post : List (Sep K)} {tail : Option Nat}
    {spans : List (Span K V)} (hn : IsInternal cap h P lo hi p n seps tail spans) {key : K}
    (hkey : (key : WithTop K) < hi) (hcut : CutAt key seps pre post) :
    Returns (fun fuel => getChildGe fuel h p key) (lastChild n.mLesser pre) := by
  obtain ⟨rfl, hpre, hpost⟩ := hcut
  have hlinked := hn.linked
  unfold getChildGe
  cases pre with
  | nil =>
    -- the key is below the first separator: `m_lesser`
    cases post with
    | nil => exact absurd rfl hn.nonempty
    | cons e es =>
      obtain ⟨hroot, next, hcell, -⟩ := hlinked
      refine ⟨0, ?_⟩
      intro fuel _
      simp [derefInternal_eq hn.cell, hroot, nonNull, derefListNode_eq hcell,
        hpost e List.mem_cons_self, lastChild]
  | cons e es =>
    have hroot : n.mRoot = some e.node := hlinked.1
    rw [hroot] at hlinked
    obtain ⟨-, next, hcell, -⟩ := id hlinked
    have hle : ¬ key < e.key := not_lt.mpr (hpre e List.mem_cons_self)
    obtain ⟨m, hm, hval, -⟩ := Linked.last hlinked
    simp only [derefInternal_eq hn.cell, hroot, nonNull, derefListNode_eq hcell, Outcome.ok_bind,
      if_neg hle]
    refine Returns.bind (getChildLnGe_spec hlinked
      (fun f hf => hpre f (List.mem_cons_of_mem _ hf)) hpost (hn.beyond.stops hkey)) ?_
    exact Returns.const (by simp [derefListNode_eq hm, hval, lastChild])

/-! ## The child a key is routed to -/

theorem slotsBefore_high_le {lo : WithBot K} {p : Nat} {seps : List (Sep K)} {key : K}
    (hle : ∀ e ∈ seps, e.key ≤ key) {sl : Slot K} (h : sl ∈ slotsBefore lo p seps) :
    sl.high ≤ key := by
  obtain ⟨e, he, heq⟩ := high_of_mem_slotsBefore h
  rw [heq]
  exact WithTop.coe_le_coe.mpr (hle e he)

theorem lt_slotsAfter_low {hi : WithTop K} {seps : List (Sep K)} {key : K}
    (hlt : ∀ e ∈ seps, key < e.key) {sl : Slot K} (h : sl ∈ slotsAfter hi seps) :
    (key : WithBot K) < sl.low := by
  obtain ⟨e, he, heq⟩ := low_of_mem_slotsAfter h
  rw [heq]
  exact WithBot.coe_lt_coe.mpr (hlt e he)

/-- The children of a node around the slot of a key: what is left of it, the
child in charge of the key, and what is right of it. -/
structure Hole (P : WithBot K → WithTop K → Nat → Span K V → Prop) (lo : WithBot K)
    (hi : WithTop K) (lesser : Nat) (pre post : List (Sep K)) (before : List (Span K V))
    (s : Span K V) (after : List (Span K V)) : Prop where
  left : List.Forall₂ (fun sl s => P sl.low sl.high sl.child s) (slotsBefore lo lesser pre) before
  child : P (lastLow lo pre) (nextHigh hi post) (lastChild lesser pre) s
  right : List.Forall₂ (fun sl s => P sl.low sl.high sl.child s) (slotsAfter hi post) after

omit [LinearOrder K] in
theorem exists_hole {P : WithBot K → WithTop K → Nat → Span K V → Prop} {lo : WithBot K}
    {hi : WithTop K} {lesser : Nat} {pre post : List (Sep K)} {spans : List (Span K V)}
    (h : List.Forall₂ (fun sl s => P sl.low sl.high sl.child s)
      (slots lo lesser hi (pre ++ post)) spans) :
    ∃ before s after, spans = before ++ s :: after ∧
      Hole P lo hi lesser pre post before s after := by
  rw [slots_append] at h
  obtain ⟨before, rest, rfl, hleft, hrest⟩ := forall₂_append_left.mp h
  cases hrest with
  | cons hchild hright => exact ⟨before, _, _, rfl, hleft, hchild, hright⟩

omit [LinearOrder K] in
/-- A hole is filled again by any child of the same slot. -/
theorem Hole.fill {P : WithBot K → WithTop K → Nat → Span K V → Prop} {lo : WithBot K}
    {hi : WithTop K} {lesser : Nat} {pre post : List (Sep K)} {before : List (Span K V)}
    {s : Span K V} {after : List (Span K V)} (h : Hole P lo hi lesser pre post before s after) :
    List.Forall₂ (fun sl s => P sl.low sl.high sl.child s)
      (slots lo lesser hi (pre ++ post)) (before ++ s :: after) := by
  rw [slots_append]
  exact List.rel_append h.left (.cons h.child h.right)

omit [LinearOrder K] in
theorem Hole.mono {P P' : WithBot K → WithTop K → Nat → Span K V → Prop} {lo : WithBot K}
    {hi : WithTop K} {lesser : Nat} {pre post : List (Sep K)} {before : List (Span K V)}
    {s : Span K V} {after : List (Span K V)} (h : Hole P lo hi lesser pre post before s after)
    (hP : ∀ lo hi q s, P lo hi q s → P' lo hi q s) :
    Hole P' lo hi lesser pre post before s after where
  left := h.left.imp fun _ _ => hP _ _ _ _
  child := hP _ _ _ _ h.child
  right := h.right.imp fun _ _ => hP _ _ _ _

theorem Hole.before_lt {h : Heap K V} {d : Nat} {lo : WithBot K} {hi : WithTop K} {lesser : Nat}
    {pre post : List (Sep K)} {before : List (Span K V)} {s : Span K V} {after : List (Span K V)}
    (hh : Hole (Rep cfg Q h d) lo hi lesser pre post before s after) {key : K}
    (hpre : ∀ e ∈ pre, e.key ≤ key) : ∀ q ∈ before.flatMap Span.entries, q.1 < key := by
  intro q hq
  obtain ⟨t, ht, hq⟩ := List.mem_flatMap.mp hq
  obtain ⟨sl, hsl, hrep⟩ := forall₂_exists_of_mem_right hh.left ht
  have hhigh := hrep.inRange.2.2 q hq
  exact WithTop.coe_lt_coe.mp (lt_of_lt_of_le hhigh (slotsBefore_high_le hpre hsl))

theorem Hole.lt_after {h : Heap K V} {d : Nat} {lo : WithBot K} {hi : WithTop K} {lesser : Nat}
    {pre post : List (Sep K)} {before : List (Span K V)} {s : Span K V} {after : List (Span K V)}
    (hh : Hole (Rep cfg Q h d) lo hi lesser pre post before s after) {key : K}
    (hpost : ∀ e ∈ post, key < e.key) : ∀ q ∈ after.flatMap Span.entries, key < q.1 := by
  intro q hq
  obtain ⟨t, ht, hq⟩ := List.mem_flatMap.mp hq
  obtain ⟨sl, hsl, hrep⟩ := forall₂_exists_of_mem_right hh.right ht
  have hlow := hrep.inRange.2.1 q hq
  exact WithBot.coe_lt_coe.mp (lt_of_lt_of_le (lt_slotsAfter_low hpost hsl) hlow)

/-- The way from a node to the child in charge of a key. -/
structure Route (h : Heap K V) (P : WithBot K → WithTop K → Nat → Span K V → Prop)
    (lo : WithBot K) (hi : WithTop K) (p : Nat) (n : Internal) (key : K) (pre post : List (Sep K))
    (before : List (Span K V)) (s : Span K V) (after : List (Span K V)) : Prop where
  hole : Hole P lo hi n.mLesser pre post before s after
  before : ∀ e ∈ pre, e.key ≤ key
  after : ∀ e ∈ post, key < e.key
  low : lastLow lo pre ≤ key
  high : (key : WithTop K) < nextHigh hi post
  child : Returns (fun fuel => getChildGe fuel h p key) (lastChild n.mLesser pre)

theorem IsInternal.exists_route {cap : Nat} {h : Heap K V}
    {P : WithBot K → WithTop K → Nat → Span K V → Prop} {lo : WithBot K} {hi : WithTop K}
    {p : Nat} {n : Internal} {seps : List (Sep K)} {tail : Option Nat} {spans : List (Span K V)}
    (hn : IsInternal cap h P lo hi p n seps tail spans) {key : K} (hlo : lo ≤ key)
    (hhi : (key : WithTop K) < hi) :
    ∃ pre post before s after, seps = pre ++ post ∧ spans = before ++ s :: after ∧
      Route h P lo hi p n key pre post before s after := by
  obtain ⟨pre, post, hcut⟩ := exists_cutAt key hn.increasing
  obtain ⟨before, s, after, hspans, hhole⟩ := exists_hole (hcut.eq ▸ hn.children)
  exact ⟨pre, post, before, s, after, hcut.eq, hspans, hhole, hcut.before, hcut.after,
    lastLow_le hlo hcut.before, lt_nextHigh hhi hcut.after, getChildGe_spec hn hhi hcut⟩

theorem Route.mono {h : Heap K V}
    {P P' : WithBot K → WithTop K → Nat → Span K V → Prop} {lo : WithBot K} {hi : WithTop K}
    {p : Nat} {n : Internal} {key : K} {pre post : List (Sep K)} {before : List (Span K V)}
    {s : Span K V} {after : List (Span K V)}
    (hroute : Route h P lo hi p n key pre post before s after)
    (hP : ∀ lo hi q s, P lo hi q s → P' lo hi q s) :
    Route h P' lo hi p n key pre post before s after :=
  { hroute with hole := hroute.hole.mono hP }

/-- What is stored for a key is stored in the child in charge of it. -/
theorem Hole.lookup {h : Heap K V} {d : Nat} {lo : WithBot K} {hi : WithTop K} {lesser : Nat}
    {pre post : List (Sep K)} {before : List (Span K V)} {s : Span K V} {after : List (Span K V)}
    (hh : Hole (Rep cfg Q h d) lo hi lesser pre post before s after) {key : K}
    (hpre : ∀ e ∈ pre, e.key ≤ key) (hpost : ∀ e ∈ post, key < e.key) (p : Nat)
    (seps : List (Sep K)) :
    (internalSpan p seps (before ++ s :: after)).entries.lookup key = s.entries.lookup key := by
  simp only [internalSpan, List.flatMap_append, List.flatMap_cons]
  rw [lookup_append_right fun q hq => (hh.before_lt hpre q hq).ne,
    lookup_append_left fun q hq => (hh.lt_after hpost q hq).ne']

/-- A subtree in charge of no key is in charge of no key. -/
theorem Void.elim {lo : WithBot K} {hi : WithTop K} {s : Span K V} (hv : Void lo hi s) {key : K}
    (hlo : lo ≤ key) (hhi : (key : WithTop K) < hi) : False := by
  obtain ⟨k, rfl, rfl, -⟩ := hv
  exact absurd (WithBot.coe_le_coe.mp hlo) (not_le.mpr (WithTop.coe_lt_coe.mp hhi))

/-- `get_val_ptr` answers with the lookup in the entries. -/
theorem getValPtr_spec {h : Heap K V} {d : Nat} {lo : WithBot K} {hi : WithTop K} {p : Nat}
    {s : Span K V} (hr : Rep cfg Q h d lo hi p s) (key : K) (hlo : lo ≤ key)
    (hhi : (key : WithTop K) < hi) :
    Returns (fun fuel => getValPtr fuel h p key) (s.entries.lookup key) := by
  induction d generalizing lo hi p s with
  | zero => exact hr.elim
  | succ d ih =>
    rcases hr with hv | ⟨l, hl, rfl⟩ | ⟨n, seps, tail, spans, hn, rfl⟩
    · exact (hv.elim hlo hhi).elim
    · refine Returns.of_succ ⟨0, ?_⟩
      intro fuel _
      simp [getValPtr, isLeaf_of_leaf hl.cell, derefLeaf_eq hl.cell, LeafList.getValPtr, leafSpan]
    · obtain ⟨pre, post, before, t, after, rfl, rfl, hroute⟩ := hn.exists_route hlo hhi
      have hsub := ih hroute.hole.child hroute.low hroute.high
      rw [hroute.hole.lookup hroute.before hroute.after]
      refine Returns.of_succ ?_
      simp only [getValPtr, isLeaf_of_internal hn.cell, Outcome.ok_bind]
      exact Returns.bind hroute.child hsub

/-! ## The leaf chain -/

/-- `m_next` runs through `leaves` in order, and on to `nx`. -/
def LeafChain (h : Heap K V) : List Nat → Option Nat → Prop
  | [], _ => True
  | a :: rest, nx => (∃ l, h.read a = some (.leaf l) ∧ l.mNext = rest.head?.or nx) ∧
      LeafChain h rest nx

omit [LinearOrder K] in
theorem leafChain_append {h : Heap K V} {xs ys : List Nat} {nx : Option Nat} :
    LeafChain h (xs ++ ys) nx ↔ LeafChain h xs (ys.head?.or nx) ∧ LeafChain h ys nx := by
  induction xs with
  | nil => simp [LeafChain]
  | cons a xs ih =>
    simp only [List.cons_append, LeafChain, ih, List.head?_append, Option.or_assoc]
    exact ⟨fun ⟨ha, hx, hy⟩ => ⟨⟨ha, hx⟩, hy⟩, fun ⟨⟨ha, hx⟩, hy⟩ => ⟨ha, hx, hy⟩⟩

omit [LinearOrder K] in
theorem LeafChain.frame {h h' : Heap K V} {leaves : List Nat} {nx : Option Nat}
    (hc : LeafChain h leaves nx) (hsame : ∀ a ∈ leaves, h'.read a = h.read a) :
    LeafChain h' leaves nx := by
  induction leaves with
  | nil => trivial
  | cons a rest ih =>
    obtain ⟨⟨l, hl, hnext⟩, hrest⟩ := hc
    refine ⟨⟨l, by rw [hsame a List.mem_cons_self, hl], hnext⟩, ih hrest ?_⟩
    intro b hb
    exact hsame b (List.mem_cons_of_mem _ hb)

/-- The pairs of the leaf at an address. -/
def leafNodes (h : Heap K V) (a : Nat) : List (K × V) :=
  match h.read a with
  | some (.leaf l) => l.mList.nodes
  | _ => []

omit [LinearOrder K] in
theorem leafNodes_eq {h : Heap K V} {a : Nat} {l : Leaf K V} (hc : h.read a = some (.leaf l)) :
    leafNodes h a = l.mList.nodes := by
  simp [leafNodes, hc]

/-- The entries of a subtree are those of its leaves. -/
theorem Rep.entries_eq {h : Heap K V} {d : Nat} {lo : WithBot K} {hi : WithTop K} {p : Nat}
    {s : Span K V} (hr : Rep cfg Q h d lo hi p s) : s.entries = s.leaves.flatMap (leafNodes h) := by
  induction d generalizing lo hi p s with
  | zero => exact hr.elim
  | succ d ih =>
    rcases hr with ⟨k, -, -, rfl⟩ | ⟨l, hl, rfl⟩ | ⟨n, seps, tail, spans, hn, rfl⟩
    · rfl
    · simp [leafSpan, leafNodes_eq hl.cell]
    · simp only [internalSpan, List.flatMap_assoc]
      refine List.flatMap_congr ?_
      intro t ht
      obtain ⟨sl, -, hrep⟩ := forall₂_exists_of_mem_right hn.children ht
      exact ih hrep

/-- The leaves of a subtree are among its cells. -/
theorem Rep.leaves_subset {h : Heap K V} {d : Nat} {lo : WithBot K} {hi : WithTop K} {p : Nat}
    {s : Span K V} (hr : Rep cfg Q h d lo hi p s) : s.leaves ⊆ s.foot := by
  induction d generalizing lo hi p s with
  | zero => exact hr.elim
  | succ d ih =>
    rcases hr with ⟨k, -, -, rfl⟩ | ⟨l, hl, rfl⟩ | ⟨n, seps, tail, spans, hn, rfl⟩
    · exact List.Subset.refl _
    · exact List.Subset.refl _
    · intro a ha
      obtain ⟨t, ht, ha⟩ := List.mem_flatMap.mp ha
      obtain ⟨sl, -, hrep⟩ := forall₂_exists_of_mem_right hn.children ht
      exact List.mem_cons_of_mem _ (List.mem_append_right _
        (List.mem_flatMap.mpr ⟨t, ht, ih hrep ha⟩))

omit [LinearOrder K] in
/-- `leaf::iterate` goes through a chain that ends in null. -/
theorem leafIterate_spec {h : Heap K V} {leaves : List Nat} (hc : LeafChain h leaves none) :
    Returns (fun fuel => leafIterate fuel h leaves.head?) (leaves.flatMap (leafNodes h)) := by
  induction leaves with
  | nil => exact Returns.of_succ ⟨0, fun _ _ => rfl⟩
  | cons a rest ih =>
    obtain ⟨⟨l, hl, hnext⟩, hrest⟩ := hc
    rw [Option.or_none] at hnext
    refine Returns.of_succ ?_
    simp only [List.head?_cons, leafIterate, derefLeaf_eq hl, Outcome.ok_bind, hnext,
      List.flatMap_cons, leafNodes_eq hl]
    exact Returns.bind (ih hrest) (Returns.const rfl)

/-- `iterate` goes down to the first leaf: it does what `leaf::iterate` does there. -/
theorem baseIterate_spec {h : Heap K V} {d : Nat} {hi : WithTop K} {p : Nat} {s : Span K V}
    (hr : Rep cfg Q h d ⊥ hi p s) :
    s.leaves ≠ [] ∧ ∀ es, Returns (fun fuel => leafIterate fuel h s.leaves.head?) es →
      Returns (fun fuel => baseIterate fuel h p) es := by
  induction d generalizing hi p s with
  | zero => exact hr.elim
  | succ d ih =>
    rcases hr with ⟨k, hbot, -⟩ | ⟨l, hl, rfl⟩ | ⟨n, seps, tail, spans, hn, rfl⟩
    · exact absurd hbot WithBot.bot_ne_coe
    · refine ⟨List.cons_ne_nil _ _, fun es hes => Returns.of_succ ?_⟩
      simp only [baseIterate, isLeaf_of_leaf hl.cell, Outcome.ok_bind, if_true]
      exact hes
    · have hch := hn.children
      rw [slots_eq_cons] at hch
      cases hch with
      | cons hfirst hrest =>
        rename_i t rest
        obtain ⟨hne, hiter⟩ := ih hfirst
        have hhead : (internalSpan p seps (t :: rest)).leaves.head? = t.leaves.head? := by
          obtain ⟨a, as, ha⟩ := List.exists_cons_of_ne_nil hne
          simp [internalSpan, ha]
        refine ⟨?_, fun es hes => Returns.of_succ ?_⟩
        · intro hnil
          rw [hnil] at hhead
          exact hne (List.head?_eq_none_iff.mp hhead.symm)
        · simp only [baseIterate, isLeaf_of_internal hn.cell, derefInternal_eq hn.cell,
            Outcome.ok_bind]
          exact hiter es (hhead ▸ hes)

end StateDb.Bpt
