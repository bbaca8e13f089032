/-
  StateDb/BptInsert.lean
  ======================
  **`bpt_internal::set`.**

  The right half of a child that was cut goes into the list of the node
  (`insertNode_spec`), and a node that overflows gives up its middle list node to
  a new root (`internalSplit_spec`).  `internalSet_spec` puts them together by
  induction on the depth.

  A new root that becomes a child as a whole is in charge of `[k, hi)`, and its
  `m_lesser`, the left half, of `[k, k)`.
-/
import StateDb.BptLeaf

namespace StateDb.Bpt

open Lib Lib.SortedAssoc

variable {K V : Type} [LinearOrder K] {cfg : Config} {Q : LeafPolicy K V}

/-! ## A list node goes into the list of a node -/

omit [LinearOrder K] in
/-- A list node is linked behind the last one of `e :: pre`. -/
theorem Linked.insert {h h' : Heap K V} {tail : Option Nat} {e x : Sep K}
    {pre post : List (Sep K)} {m : ListNode K}
    (hl : Linked h (some e.node) (e :: (pre ++ post)) tail)
    (hnd : ((e :: (pre ++ post)).map Sep.node).Nodup)
    (hm : h.read (lastNode e.node pre) = some (.listNode m))
    (hm' : h'.read (lastNode e.node pre) = some (.listNode { m with mNext := some x.node }))
    (hx : h'.read x.node = some (.listNode ⟨x.key, x.child, m.mNext⟩))
    (hsame : ∀ f ∈ e :: (pre ++ post), f.node ≠ lastNode e.node pre →
      h'.read f.node = h.read f.node) :
    Linked h' (some e.node) (e :: (pre ++ x :: post)) tail := by
  induction pre generalizing e with
  | nil =>
    obtain ⟨-, next, hcell, hrest⟩ := hl
    obtain ⟨hnot, -⟩ := List.nodup_cons.mp hnd
    simp only [lastNode] at hm hm' hsame
    obtain rfl : (⟨e.key, e.child, next⟩ : ListNode K) = m := by simpa [hcell] using hm
    refine ⟨rfl, _, hm', rfl, _, hx, hrest.frame ?_⟩
    intro f hf
    refine hsame f (List.mem_cons_of_mem _ hf) fun heq => hnot ?_
    exact heq ▸ List.mem_map_of_mem hf
  | cons f fs ih =>
    obtain ⟨-, next, hcell, hrest⟩ := hl
    have hnext : next = some f.node := hrest.1
    subst hnext
    obtain ⟨hnot, hnd⟩ := List.nodup_cons.mp hnd
    -- the list node of `e` is not the last one
    have hne : e.node ≠ lastNode f.node fs := by
      intro heq
      refine hnot ?_
      rw [heq]
      have hmem := lastNode_mem f fs
      simp only [List.map_cons, List.cons_append, List.map_append, List.mem_cons,
        List.mem_append] at hmem ⊢
      exact hmem.imp id Or.inl
    refine ⟨rfl, _, (hsame e List.mem_cons_self hne).trans hcell, ?_⟩
    exact ih hrest hnd hm hm' fun g hg => hsame g (List.mem_cons_of_mem _ hg)

/-- What `insertNode` leaves behind. -/
structure NodeInserted (h h' : Heap K V) (p : Nat) (n n' : Internal) (pre post : List (Sep K))
    (x : Sep K) (tail : Option Nat) : Prop where
  cell : h'.read p = some (.internal n')
  lesser : n'.mLesser = n.mLesser
  size : n'.mSize = sizeInc n.mSize
  linked : Linked h' n'.mRoot (pre ++ x :: post) tail
  frame : Frame h h' (p :: (pre ++ post).map Sep.node)
  fresh : h'.fresh = h.fresh + 1

/-- Before the first list node. -/
theorem insertNode_front {h : Heap K V} {p : Nat} {n : Internal} {e : Sep K} {es : List (Sep K)}
    {tail : Option Nat} {k : K} (first after : Nat) (hcell : h.read p = some (.internal n))
    (hl : Linked h n.mRoot (e :: es) tail) (hpne : ∀ f ∈ e :: es, f.node ≠ p) (hlt : k < e.key) :
    ∃ h' n', Returns (fun fuel => insertNode fuel h p k first after) h' ∧
      NodeInserted h h' p n n' [] (e :: es) ⟨h.fresh, k, first⟩ tail := by
  have hplt : p < h.fresh := CellStore.lt_fresh_of_read hcell
  obtain ⟨hroot, next, hnode, -⟩ := id hl
  let h₁ := h.alloc (.listNode ⟨k, first, some e.node⟩)
  let n' : Internal := { n with mRoot := some h.fresh, mSize := sizeInc n.mSize }
  have hcell₁ : h₁.read p = some (.internal n) := by
    rw [CellStore.read_alloc_of_lt hplt, hcell]
  refine ⟨h₁.write p (.internal n'), n', ⟨0, fun fuel _ => ?_⟩,
    CellStore.read_write_self hcell₁, rfl, rfl, ⟨rfl, some e.node, ?_, ?_⟩, ?_, ?_⟩
  · simp [insertNode, derefInternal_eq hcell, hroot, nonNull, derefListNode_eq hnode, hlt, h₁, n']
  · rw [CellStore.read_write_of_ne hplt.ne', CellStore.read_alloc_self]
  · rw [hroot] at hl
    refine hl.frame ?_
    intro f hf
    rw [CellStore.read_write_of_ne (hpne f hf),
      CellStore.read_alloc_of_lt (CellStore.lt_fresh_of_read (hl.cell_of_mem hf).choose_spec)]
  · exact ((Frame.refl h _).alloc _).write (Or.inl List.mem_cons_self)
      (KeysKept.write_other hcell₁ (fun _ heq => by cases heq) _)
  · rw [CellStore.fresh_write, CellStore.fresh_alloc]

/-- Behind the last list node whose key is not above. -/
theorem insertNode_behind {h : Heap K V} {p : Nat} {n : Internal} {e : Sep K}
    {es post : List (Sep K)} {tail : Option Nat} {k : K} (first after : Nat)
    (hcell : h.read p = some (.internal n)) (hl : Linked h n.mRoot ((e :: es) ++ post) tail)
    (hnd : (((e :: es) ++ post).map Sep.node).Nodup)
    (hpne : ∀ f ∈ (e :: es) ++ post, f.node ≠ p) (hpre : ∀ f ∈ e :: es, f.key ≤ k)
    (hpost : ∀ f ∈ post, k < f.key)
    (htail : ∀ a, tail = some a → ∃ m : ListNode K, h.read a = some (.listNode m) ∧ k < m.key) :
    ∃ h' n', Returns (fun fuel => insertNode fuel h p k first after) h' ∧
      NodeInserted h h' p n n' (e :: es) post ⟨h.fresh, k, after⟩ tail := by
  have hplt : p < h.fresh := CellStore.lt_fresh_of_read hcell
  have hroot : n.mRoot = some e.node := hl.1
  rw [hroot] at hl
  obtain ⟨-, next, hnode, -⟩ := id hl
  have hle : ¬ k < e.key := not_lt.mpr (hpre e List.mem_cons_self)
  obtain ⟨m, hm, -, -⟩ := Linked.last hl
  obtain ⟨f, hf, hflast⟩ := List.mem_map.mp (lastNode_mem e es)
  have hf' : f ∈ (e :: es) ++ post := List.mem_append_left _ hf
  have hlast : lastNode e.node es < h.fresh := CellStore.lt_fresh_of_read hm
  have hlastp : lastNode e.node es ≠ p := hflast ▸ hpne f hf'
  let n' : Internal := { n with mSize := sizeInc n.mSize }
  let h₁ := h.alloc (.listNode ⟨k, after, m.mNext⟩)
  let h₂ := h₁.write (lastNode e.node es) (.listNode { m with mNext := some h.fresh })
  have hm₁ : h₁.read (lastNode e.node es) = some (.listNode m) := by
    rw [CellStore.read_alloc_of_lt hlast, hm]
  have hcell₂ : h₂.read p = some (.internal n) := by
    rw [CellStore.read_write_of_ne hlastp.symm, CellStore.read_alloc_of_lt hplt, hcell]
  refine ⟨h₂.write p (.internal n'), n', ?_, CellStore.read_write_self hcell₂, rfl, rfl, ?_, ?_, ?_⟩
  · simp only [insertNode, derefInternal_eq hcell, hroot, nonNull, derefListNode_eq hnode,
      Outcome.ok_bind, if_neg hle]
    refine Returns.bind (getChildLnGe_spec hl (fun g hg => hpre g (List.mem_cons_of_mem _ hg))
      hpost htail) (Returns.const ?_)
    simp [derefListNode_eq hm, h₁, h₂, n', hroot]
  · show Linked _ n.mRoot _ _
    rw [hroot]
    refine Linked.insert hl hnd hm ?_ ?_ ?_
    · rw [CellStore.read_write_of_ne hlastp, CellStore.read_write_self hm₁]
    · rw [CellStore.read_write_of_ne hplt.ne', CellStore.read_write_of_ne hlast.ne',
        CellStore.read_alloc_self]
    · intro g hg hgne
      rw [CellStore.read_write_of_ne (hpne g hg), CellStore.read_write_of_ne hgne,
        CellStore.read_alloc_of_lt (CellStore.lt_fresh_of_read (hl.cell_of_mem hg).choose_spec)]
  · have hframe : Frame h h₂ (p :: ((e :: es) ++ post).map Sep.node) :=
      ((Frame.refl h _).alloc _).write
        (Or.inl (List.mem_cons_of_mem _ (hflast ▸ List.mem_map_of_mem hf')))
        (KeysKept.write_listNode hm₁ rfl)
    exact hframe.write (Or.inl List.mem_cons_self)
      (KeysKept.write_other hcell₂ (fun _ heq => by cases heq) _)
  · rw [CellStore.fresh_write, CellStore.fresh_write, CellStore.fresh_alloc]

theorem insertNode_spec {h : Heap K V} {p : Nat} {n : Internal} {pre post : List (Sep K)}
    {tail : Option Nat} {k : K} (first after : Nat) (hcell : h.read p = some (.internal n))
    (hl : Linked h n.mRoot (pre ++ post) tail) (hne : pre ++ post ≠ [])
    (hnd : (p :: (pre ++ post).map Sep.node).Nodup) (hpre : ∀ e ∈ pre, e.key ≤ k)
    (hpost : ∀ e ∈ post, k < e.key)
    (htail : ∀ a, tail = some a → ∃ m : ListNode K, h.read a = some (.listNode m) ∧ k < m.key) :
    ∃ h' n', Returns (fun fuel => insertNode fuel h p k first after) h' ∧
      NodeInserted h h' p n n' pre post
        ⟨h.fresh, k, if pre.isEmpty then first else after⟩ tail := by
  obtain ⟨hpnot, hnd⟩ := List.nodup_cons.mp hnd
  have hpne : ∀ f ∈ pre ++ post, f.node ≠ p := fun f hf heq =>
    hpnot (heq ▸ List.mem_map_of_mem hf)
  cases pre with
  | nil =>
    cases post with
    | nil => exact absurd rfl hne
    | cons e es => exact insertNode_front first after hcell hl hpne (hpost e List.mem_cons_self)
  | cons e es => exact insertNode_behind first after hcell hl hnd hpne hpre hpost htail

/-! ## An update of one child, seen from the node -/

omit [LinearOrder K] in
/-- A node's own cells are distinct. -/
theorem Owns.own_nodup {h : Heap K V} {p : Nat} {seps : List (Sep K)} {spans : List (Span K V)}
    (hs : Owns h (internalSpan p seps spans)) : (p :: seps.map Sep.node).Nodup := by
  have hnd := hs.nodup
  simp only [internalSpan, ← List.cons_append] at hnd
  exact (List.nodup_append.mp hnd).1

omit [LinearOrder K] in
/-- The cells of the children are not the node's own. -/
theorem Owns.apart {h : Heap K V} {p : Nat} {seps : List (Sep K)} {spans : List (Span K V)}
    (hs : Owns h (internalSpan p seps spans)) :
    ∀ u ∈ spans, ∀ a ∈ u.foot, a ∉ p :: seps.map Sep.node := by
  have hnd := hs.nodup
  simp only [internalSpan, ← List.cons_append] at hnd
  obtain ⟨-, -, hown⟩ := List.nodup_append.mp hnd
  intro u hu a ha hin
  exact hown a hin a (List.mem_flatMap.mpr ⟨u, hu, ha⟩) rfl

omit [LinearOrder K] in
/-- The cells of a child are neither the node's own nor those of its siblings. -/
theorem Owns.child_disjoint {h : Heap K V} {p : Nat} {seps : List (Sep K)}
    {before after : List (Span K V)} {t : Span K V}
    (hs : Owns h (internalSpan p seps (before ++ t :: after))) :
    (∀ a ∈ p :: seps.map Sep.node, a ∉ t.foot) ∧
      (∀ u ∈ before, ∀ a ∈ u.foot, a ∉ t.foot) ∧ ∀ u ∈ after, ∀ a ∈ u.foot, a ∉ t.foot := by
  have hnd := hs.nodup
  simp only [internalSpan, List.flatMap_append, List.flatMap_cons, ← List.cons_append] at hnd
  obtain ⟨-, hrest, hown⟩ := List.nodup_append.mp hnd
  obtain ⟨-, hright, hleft⟩ := List.nodup_append.mp hrest
  obtain ⟨-, -, hcross⟩ := List.nodup_append.mp hright
  refine ⟨?_, ?_, ?_⟩
  · intro a ha hin
    exact hown a ha a (by simp [hin]) rfl
  · intro u hu a ha hin
    exact hleft a (List.mem_flatMap.mpr ⟨u, hu, ha⟩) a (by simp [hin]) rfl
  · intro u hu a ha hin
    exact hcross a hin a (List.mem_flatMap.mpr ⟨u, hu, ha⟩) rfl

omit [LinearOrder K] in
theorem Owns.child_nodup {h : Heap K V} {p : Nat} {seps : List (Sep K)}
    {before after : List (Span K V)} {t : Span K V}
    (hs : Owns h (internalSpan p seps (before ++ t :: after))) : t.foot.Nodup := by
  have hnd := hs.nodup
  simp only [internalSpan, List.flatMap_append, List.flatMap_cons, ← List.cons_append] at hnd
  have hright := (List.nodup_append.mp (List.nodup_append.mp hnd).2.1).2.1
  exact (List.nodup_append.mp hright).1

/-- The node's own cells stay as they are while a child is updated. -/
theorem IsInternal.keep {cap : Nat} {h h₁ : Heap K V}
    {P : WithBot K → WithTop K → Nat → Span K V → Prop} {lo : WithBot K} {hi : WithTop K}
    {p : Nat} {n : Internal} {seps : List (Sep K)} {tail : Option Nat}
    {before after : List (Span K V)} {t : Span K V}
    (hn : IsInternal cap h P lo hi p n seps tail (before ++ t :: after))
    (hs : Owns h (internalSpan p seps (before ++ t :: after))) (hf : Frame h h₁ t.foot) :
    h₁.read p = some (.internal n) ∧ Linked h₁ n.mRoot seps tail ∧ Beyond h₁ hi tail := by
  obtain ⟨hown, -, -⟩ := hs.child_disjoint
  have hsame : ∀ a ∈ p :: seps.map Sep.node, h₁.read a = h.read a := fun a ha =>
    hf.same a (hs.allocated a (by
      simp only [internalSpan, ← List.cons_append]
      exact List.mem_append_left _ ha)) (hown a ha)
  refine ⟨by rw [hsame p List.mem_cons_self, hn.cell], hn.linked.frame fun e he => ?_,
    hn.beyond.frame hf.keys⟩
  exact hsame _ (List.mem_cons_of_mem _ (List.mem_map_of_mem he))

theorem Hole.away {h h₁ : Heap K V} {d : Nat}
    {P : Heap K V → WithBot K → WithTop K → Nat → Span K V → Prop} (hP : Stable cfg Q d P)
    {lo : WithBot K} {hi : WithTop K} {p lesser : Nat} {seps pre post : List (Sep K)}
    {before after : List (Span K V)} {t t' : Span K V}
    (hh : Hole (P h) lo hi lesser pre post before t after)
    (hs : Owns h (internalSpan p seps (before ++ t :: after))) (hf : Frame h h₁ t.foot)
    (hc : P h₁ (lastLow lo pre) (nextHigh hi post) (lastChild lesser pre) t') :
    Hole (P h₁) lo hi lesser pre post before t' after := by
  obtain ⟨-, hbefore, hafter⟩ := hs.child_disjoint
  exact ⟨hP.forall₂_away hf hh.left hbefore, hc, hP.forall₂_away hf hh.right hafter⟩

theorem Hole.leaves_subset {h : Heap K V} {d : Nat} {lo : WithBot K} {hi : WithTop K}
    {lesser : Nat} {pre post : List (Sep K)} {before after : List (Span K V)} {t : Span K V}
    (hh : Hole (Rep cfg Q h d) lo hi lesser pre post before t after) :
    (∀ u ∈ before, u.leaves ⊆ u.foot) ∧ ∀ u ∈ after, u.leaves ⊆ u.foot := by
  constructor
  · intro u hu
    obtain ⟨sl, -, hrep⟩ := forall₂_exists_of_mem_right hh.left hu
    exact hrep.leaves_subset
  · intro u hu
    obtain ⟨sl, -, hrep⟩ := forall₂_exists_of_mem_right hh.right hu
    exact hrep.leaves_subset

/-- A change of the entries in the slot of a key is that change of all entries. -/
theorem Hole.entries_upsert {h : Heap K V} {d : Nat} {lo : WithBot K} {hi : WithTop K}
    {p lesser : Nat} {seps seps' pre post : List (Sep K)} {before after : List (Span K V)}
    {t : Span K V} (ts : List (Span K V))
    (hh : Hole (Rep cfg Q h d) lo hi lesser pre post before t after) {key : K} {val : V}
    (hpre : ∀ e ∈ pre, e.key ≤ key) (hpost : ∀ e ∈ post, key < e.key)
    (hts : (Span.join ts).entries = upsert key val t.entries) :
    (internalSpan p seps' (before ++ (ts ++ after))).entries =
      upsert key val (internalSpan p seps (before ++ t :: after)).entries := by
  simp only [internalSpan, List.flatMap_append, List.flatMap_cons]
  rw [upsert_append_right (hh.before_lt hpre), upsert_append_left (hh.lt_after hpost), ← hts]
  rfl

theorem IsInternal.childWhole {cap : Nat} {h h₁ : Heap K V} {d : Nat}
    {P : Heap K V → WithBot K → WithTop K → Nat → Span K V → Prop} (hP : Stable cfg Q d P)
    {lo : WithBot K} {hi : WithTop K} {p : Nat} {n : Internal} {pre post : List (Sep K)}
    {tail : Option Nat} {before after : List (Span K V)} {t t' : Span K V}
    (hn : IsInternal cap h (P h) lo hi p n (pre ++ post) tail (before ++ t :: after))
    (hs : Owns h (internalSpan p (pre ++ post) (before ++ t :: after)))
    (hh : Hole (P h) lo hi n.mLesser pre post before t after) (hr : Replaces h h₁ t t')
    (hc : P h₁ (lastLow lo pre) (nextHigh hi post) (lastChild n.mLesser pre) t') :
    IsInternal cap h₁ (P h₁) lo hi p n (pre ++ post) tail (before ++ t' :: after) ∧
      Replaces h h₁ (internalSpan p (pre ++ post) (before ++ t :: after))
        (internalSpan p (pre ++ post) (before ++ t' :: after)) := by
  obtain ⟨hcell, hlinked, hbeyond⟩ := hn.keep hs hr.frame
  obtain ⟨hbefore, hafter⟩ := (hh.mono fun _ _ _ _ => hP.rep).leaves_subset
  refine ⟨{ hn with
    cell := hcell
    linked := hlinked
    beyond := hbeyond
    children := (hh.away hP hs hr.frame hc).fill }, ?_⟩
  exact Replaces.child [t'] hs hbefore hafter (by rwa [Span.join_singleton])

theorem lastLow_mono {lo : WithBot K} {pre : List (Sep K)} {x : WithBot K}
    (hinc : pre.Pairwise (fun e f => e.key < f.key)) (hlow : lastLow lo pre < x) :
    ∀ e ∈ pre, (e.key : WithBot K) < x := by
  induction pre generalizing lo with
  | nil => simp
  | cons e es ih =>
    obtain ⟨he, hes⟩ := List.pairwise_cons.mp hinc
    intro f hf
    rcases List.mem_cons.mp hf with rfl | hf
    · cases es with
      | nil => exact hlow
      | cons g gs =>
        exact (WithBot.coe_lt_coe.mpr (he g List.mem_cons_self)).trans
          (@ih (f.key : WithBot K) hes hlow g List.mem_cons_self)
    · exact ih hes hlow f hf

theorem nextHigh_mono {hi : WithTop K} {post : List (Sep K)} {x : WithTop K}
    (hinc : post.Pairwise (fun e f => e.key < f.key)) (hhigh : x < nextHigh hi post) :
    ∀ e ∈ post, x < (e.key : WithTop K) := by
  cases post with
  | nil => simp
  | cons e es =>
    intro f hf
    rcases List.mem_cons.mp hf with rfl | hf
    · exact hhigh
    · exact lt_trans hhigh
        (WithTop.coe_lt_coe.mpr ((List.pairwise_cons.mp hinc).1 f hf))

omit [LinearOrder K] in
/-- A list node was inserted: only the node's own cells changed. -/
theorem NodeInserted.replaces {h h' : Heap K V} {p : Nat} {n n' : Internal}
    {pre post : List (Sep K)} {x : Sep K} {tail : Option Nat} {spans : List (Span K V)}
    (hi : NodeInserted h h' p n n' pre post x tail) (hx : x.node = h.fresh)
    (hs : Owns h (internalSpan p (pre ++ post) spans)) (hleaves : ∀ u ∈ spans, u.leaves ⊆ u.foot) :
    Replaces h h' (internalSpan p (pre ++ post) spans)
      (internalSpan p (pre ++ x :: post) spans) := by
  have hnd := hs.nodup
  have hsub : (Span.join spans).leaves ⊆ (Span.join spans).foot := Span.join_leaves_subset hleaves
  simp only [internalSpan, ← List.cons_append] at hnd
  obtain ⟨-, -, hown⟩ := List.nodup_append.mp hnd
  have hmem : ∀ a ∈ (internalSpan p (pre ++ x :: post) spans).foot,
      a ∈ (internalSpan p (pre ++ post) spans).foot ∨ a = h.fresh := by
    intro a ha
    simp only [internalSpan, List.map_append, List.map_cons, List.mem_cons, List.mem_append,
      hx] at ha ⊢
    tauto
  refine ⟨hi.frame.mono ?_, ⟨?_, ?_, ?_⟩, ?_, ?_, rfl⟩
  · intro a ha
    simp only [internalSpan, ← List.cons_append]
    exact List.mem_append_left _ ha
  · have hfresh : h.fresh ∉ (internalSpan p (pre ++ post) spans).foot := fun hin =>
      absurd (hs.allocated _ hin) (by omega)
    have hperm : List.Perm (internalSpan p (pre ++ x :: post) spans).foot
        (h.fresh :: (internalSpan p (pre ++ post) spans).foot) := by
      have hold : (internalSpan p (pre ++ post) spans).foot = (p :: pre.map Sep.node) ++
          (post.map Sep.node ++ spans.flatMap Span.foot) := by simp [internalSpan]
      have hnew : (internalSpan p (pre ++ x :: post) spans).foot = (p :: pre.map Sep.node) ++
          h.fresh :: (post.map Sep.node ++ spans.flatMap Span.foot) := by simp [internalSpan, hx]
      rw [hold, hnew]
      exact List.perm_middle
    exact hperm.nodup_iff.mpr (List.nodup_cons.mpr ⟨hfresh, hs.nodup⟩)
  · intro a ha
    simp only [internalSpan, ← List.cons_append]
    exact List.mem_append_right _ (hsub ha)
  · intro a ha
    rw [hi.fresh]
    rcases hmem a ha with ha | rfl
    · exact Nat.lt_succ_of_lt (hs.allocated a ha)
    · exact Nat.lt_succ_self _
  · intro a ha
    exact (hmem a ha).imp id fun heq => heq.ge
  · intro nx hc
    refine hc.frame fun a ha => hi.frame.same a (hs.allocated a (hs.leaves ha)) ?_
    intro hin
    exact hown a hin a (hsub ha) rfl

omit [LinearOrder K] in
theorem slots_insert (lo : WithBot K) (p : Nat) (hi : WithTop K) (pre : List (Sep K)) (x : Sep K)
    (post : List (Sep K)) :
    slots lo p hi (pre ++ x :: post) = slotsBefore lo p pre ++
      ⟨lastLow lo pre, x.key, lastChild p pre⟩ :: ⟨x.key, nextHigh hi post, x.child⟩ ::
        slotsAfter hi post := by
  rw [slots_append]
  rfl

theorem increasing_insert {pre post : List (Sep K)} {x : Sep K}
    (hinc : (pre ++ post).Pairwise (fun e f => e.key < f.key)) (hpre : ∀ e ∈ pre, e.key < x.key)
    (hpost : ∀ e ∈ post, x.key < e.key) :
    (pre ++ x :: post).Pairwise (fun e f => e.key < f.key) := by
  obtain ⟨hincPre, hincPost, -⟩ := List.pairwise_append.mp hinc
  refine List.pairwise_append.mpr ⟨hincPre, List.pairwise_cons.mpr ⟨hpost, hincPost⟩, ?_⟩
  intro e he f hf
  rcases List.mem_cons.mp hf with rfl | hf
  · exact hpre e he
  · exact (hpre e he).trans (hpost f hf)

omit [LinearOrder K] in
theorem forall_mem_insert {R : Sep K → Prop} {pre post : List (Sep K)} {x : Sep K}
    (h : ∀ e ∈ pre ++ post, R e) (hx : R x) : ∀ e ∈ pre ++ x :: post, R e := by
  rw [List.forall_mem_append] at h ⊢
  exact ⟨h.1, List.forall_mem_cons.mpr ⟨hx, h.2⟩⟩

/-- A child that was cut at `k`: its right half, `u`, goes into the list. -/
theorem IsInternal.childHalves {cap : Nat} {h h₁ : Heap K V} {d : Nat}
    {P : Heap K V → WithBot K → WithTop K → Nat → Span K V → Prop} (hP : Stable cfg Q d P)
    {lo : WithBot K} {hi : WithTop K} {p : Nat} {n : Internal} {pre post : List (Sep K)}
    {tail : Option Nat} {before after : List (Span K V)} {t t₁ u : Span K V} {k : K}
    (first afterwards : Nat)
    (hn : IsInternal cap h (P h) lo hi p n (pre ++ post) tail (before ++ t :: after))
    (hs : Owns h (internalSpan p (pre ++ post) (before ++ t :: after)))
    (hh : Hole (P h) lo hi n.mLesser pre post before t after)
    (hcap : cap + 1 < sizeMod) (hlow : lastLow lo pre < k) (hlo : lo ≤ k)
    (hhigh : (k : WithTop K) < nextHigh hi post) (hhi : (k : WithTop K) < hi)
    (hr : Replaces h h₁ t (Span.join [t₁, u]))
    (hleft : P h₁ (lastLow lo pre) k (lastChild n.mLesser pre) t₁)
    (hright : P h₁ k (nextHigh hi post) (if pre.isEmpty then first else afterwards) u) :
    ∃ h₂ n' seps', Returns (fun fuel => insertNode fuel h₁ p k first afterwards) h₂ ∧
      n'.mSize = n.mSize + 1 ∧
      IsInternal (cap + 1) h₂ (P h₂) lo hi p n' seps' tail (before ++ t₁ :: u :: after) ∧
      Replaces h h₂ (internalSpan p (pre ++ post) (before ++ t :: after))
        (internalSpan p seps' (before ++ t₁ :: u :: after)) := by
  obtain ⟨hcell, hlinked, hbeyond⟩ := hn.keep hs hr.frame
  obtain ⟨hbefore, hafter⟩ := (hh.mono fun _ _ _ _ => hP.rep).leaves_subset
  obtain ⟨-, hdisjB, hdisjA⟩ := hs.child_disjoint
  obtain ⟨hincPre, hincPost, -⟩ := List.pairwise_append.mp hn.increasing
  have hpre : ∀ e ∈ pre, e.key < k := fun e he =>
    WithBot.coe_lt_coe.mp (lastLow_mono hincPre hlow e he)
  have hpost : ∀ e ∈ post, k < e.key := fun e he =>
    WithTop.coe_lt_coe.mp (nextHigh_mono hincPost hhigh e he)
  have hchild := Replaces.child [t₁, u] hs hbefore hafter hr
  obtain ⟨h₂, n', hrun, hins⟩ := insertNode_spec first afterwards hcell hlinked hn.nonempty
    hs.own_nodup (fun e he => (hpre e he).le) hpost (hbeyond.stops hhi)
  have hspans : ∀ v ∈ before ++ t₁ :: u :: after, v.leaves ⊆ v.foot := by
    intro v hv
    simp only [List.mem_append, List.mem_cons] at hv
    rcases hv with hv | rfl | rfl | hv
    · exact hbefore v hv
    · exact (hP.rep hleft).leaves_subset
    · exact (hP.rep hright).leaves_subset
    · exact hafter v hv
  have hrepl := hins.replaces rfl hchild.owns hspans
  have hsize : n'.mSize = n.mSize + 1 := by
    have hlen := hn.capacity
    rw [hins.size, hn.size, sizeInc_of_lt (by omega)]
  refine ⟨h₂, n', _, hrun, hsize, ?_, hchild.trans hrepl⟩
  -- the children are away from the node's own cells
  have hrep₁ : List.Forall₂ (fun sl s => P h₁ sl.low sl.high sl.child s)
      (slots lo n.mLesser hi
        (pre ++ ⟨h₁.fresh, k, if pre.isEmpty then first else afterwards⟩ :: post))
      (before ++ t₁ :: u :: after) := by
    rw [slots_insert]
    exact List.rel_append (hP.forall₂_away hr.frame hh.left hdisjB)
      (.cons hleft (.cons hright (hP.forall₂_away hr.frame hh.right hdisjA)))
  refine ⟨hins.cell, hins.linked, hbeyond.frame hins.frame.keys, ?_, by simp, ?_,
    increasing_insert hn.increasing hpre hpost, forall_mem_insert hn.above hlo,
    forall_mem_insert hn.below hhi, ?_⟩
  · rw [hsize, hn.size]
    simp only [List.length_append, List.length_cons]
    omega
  · have hlen := hn.capacity
    simp only [List.length_append, List.length_cons] at hlen ⊢
    omega
  · rw [hins.lesser]
    exact hP.forall₂_away hins.frame hrep₁ hchild.owns.apart

/-! ## `bpt_internal::split` -/

omit [LinearOrder K] in
theorem skip_linked {h : Heap K V} {r m : Option Nat} {xs : List (Sep K)}
    (hl : Linked h r xs m) : skip h xs.length r = .ok m := by
  induction xs generalizing r with
  | nil => exact congrArg Outcome.ok hl
  | cons e es ih =>
    obtain ⟨rfl, next, hcell, hrest⟩ := hl
    simp only [List.length_cons, skip, derefListNode_eq hcell, Outcome.ok_bind]
    exact ih hrest

/-- A new root over `p`, with the list node `m` of key `k` and the right child `q`. -/
structure IsNewRoot (cfg : Config) (Q : LeafPolicy K V) (h : Heap K V) (d : Nat) (lo : WithBot K)
    (hi : WithTop K) (p R : Nat) (m : Nat) (k : K) (q : Nat) (s₁ s₂ : Span K V) : Prop where
  cell : h.read R = some (.internal ⟨p, some m, 1⟩)
  node : h.read m = some (.listNode ⟨k, q, none⟩)
  above : lo < k
  below : (k : WithTop K) < hi
  left : HasInternal cfg.maxSize h (Rep cfg Q h d) lo k p s₁
  right : HasInternal cfg.maxSize h (Rep cfg Q h d) k hi q s₂

/-- The new root and its list node. -/
def rootSpan (R m : Nat) : Span K V := ⟨[], [], [R, m]⟩

/-- A node `p` that was cut at `k`: the new root `R` over it, with the list node `m` and the
right half `q`. -/
structure Halved (cap : Nat) (h : Heap K V) (P : WithBot K → WithTop K → Nat → Span K V → Prop)
    (lo : WithBot K) (hi : WithTop K) (p R m : Nat) (k : K) (q : Nat) (s₁ s₂ : Span K V) :
    Prop where
  cell : h.read R = some (.internal ⟨p, some m, 1⟩)
  node : h.read m = some (.listNode ⟨k, q, none⟩)
  above : lo < k
  below : (k : WithTop K) < hi
  left : HasInternal cap h P lo k p s₁
  right : HasInternal cap h P k hi q s₂

omit [LinearOrder K] in
/-- The cells after `split`: `this` keeps the list up to the middle node, which
goes to the new root; the rest goes to a new node. -/
theorem internalSplit_eq {h : Heap K V} {p : Nat} {n : Internal} {left : List (Sep K)}
    {m : Sep K} {right : List (Sep K)} {tail : Option Nat} (hcell : h.read p = some (.internal n))
    (hl : Linked h n.mRoot (left ++ m :: right) tail)
    (hsize : n.mSize = (left ++ m :: right).length) (hmiddle : n.mSize / 2 = left.length)
    (hnd : (p :: (left ++ m :: right).map Sep.node).Nodup) :
    ∃ h' next, internalSplit h p = .ok (h', h.fresh) ∧ Frame h h' [p, m.node] ∧
      h'.fresh = h.fresh + 2 ∧ h'.read p = some (.internal { n with mSize := left.length }) ∧
      h'.read m.node = some (.listNode ⟨m.key, h.fresh + 1, none⟩) ∧
      h'.read h.fresh = some (.internal ⟨p, some m.node, 1⟩) ∧
      h'.read (h.fresh + 1) = some (.internal ⟨m.child, next, right.length⟩) ∧
      Linked h' n.mRoot left (some m.node) ∧ Linked h' next right tail := by
  obtain ⟨mid, hleft, rfl, next, hnode, hright⟩ := linked_append.mp hl
  have hskip : skip h left.length n.mRoot = .ok (some m.node) := skip_linked hleft
  have hplt : p < h.fresh := CellStore.lt_fresh_of_read hcell
  have hmlt : m.node < h.fresh := CellStore.lt_fresh_of_read hnode
  simp only [List.map_append, List.map_cons, List.nodup_cons, List.nodup_append, List.mem_append,
    List.mem_cons] at hnd
  obtain ⟨hpnot, -, ⟨hmright, -⟩, hcross⟩ := hnd
  have hpm : p ≠ m.node := fun heq => hpnot (Or.inr (Or.inl heq))
  let h₁ := h.alloc (.internal ⟨p, some m.node, 1⟩)
  let h₂ := h₁.alloc (.internal ⟨m.child, next, n.mSize - n.mSize / 2 - 1⟩)
  let h₃ := h₂.write m.node (.listNode ⟨m.key, h₁.fresh, none⟩)
  let h₄ := h₃.write p (.internal { n with mSize := n.mSize / 2 })
  have hfresh₁ : h₁.fresh = h.fresh + 1 := CellStore.fresh_alloc ..
  have hnode₂ : h₂.read m.node = some (.listNode ⟨m.key, m.child, next⟩) := by
    rw [CellStore.read_alloc_of_lt (by omega), CellStore.read_alloc_of_lt hmlt, hnode]
  have hcell₃ : h₃.read p = some (.internal n) := by
    rw [CellStore.read_write_of_ne hpm, CellStore.read_alloc_of_lt (by omega),
      CellStore.read_alloc_of_lt hplt, hcell]
  have hframe₃ : Frame h h₃ [p, m.node] :=
    (((Frame.refl h _).alloc _).alloc _).write (Or.inl (by simp))
      (KeysKept.write_listNode hnode₂ rfl)
  have hframe : Frame h h₄ [p, m.node] := hframe₃.write (Or.inl (by simp))
    (KeysKept.write_other hcell₃ (fun _ heq => by cases heq) _)
  have hsame : ∀ e : Sep K, (∃ c, h.read e.node = some c) → e.node ≠ p → e.node ≠ m.node →
      h₄.read e.node = h.read e.node := by
    rintro e ⟨c, hc⟩ hp hm
    exact hframe.same e.node (CellStore.lt_fresh_of_read hc) (by simp [hp, hm])
  have hlen : n.mSize - n.mSize / 2 - 1 = right.length := by
    rw [hmiddle, hsize]
    simp only [List.length_append, List.length_cons]
    omega
  refine ⟨h₄, next, ?_, hframe, ?_, ?_, ?_, ?_, ?_, ?_, ?_⟩
  · simp [internalSplit, derefInternal_eq hcell, hmiddle, hskip, nonNull, derefListNode_eq hnode,
      h₄, h₃, h₂, h₁]
  · simp [h₄, h₃, h₂, h₁]
  · rw [CellStore.read_write_self hcell₃, hmiddle]
  · rw [CellStore.read_write_of_ne hpm.symm, CellStore.read_write_self hnode₂, hfresh₁]
  · rw [CellStore.read_write_of_ne hplt.ne', CellStore.read_write_of_ne hmlt.ne',
      CellStore.read_alloc_of_lt (by omega), CellStore.read_alloc_self]
  · rw [← hfresh₁, CellStore.read_write_of_ne (by omega), CellStore.read_write_of_ne (by omega),
      CellStore.read_alloc_self, hlen]
  · refine hleft.frame ?_
    intro e he
    obtain ⟨c, hc⟩ := hleft.cell_of_mem he
    refine hsame e ⟨_, hc⟩ (fun heq => hpnot (Or.inl (heq ▸ List.mem_map_of_mem he))) ?_
    exact hcross e.node (List.mem_map_of_mem he) m.node (Or.inl rfl)
  · refine hright.frame ?_
    intro e he
    obtain ⟨c, hc⟩ := hright.cell_of_mem he
    refine hsame e ⟨_, hc⟩ (fun heq => hpnot (Or.inr (Or.inr (heq ▸ List.mem_map_of_mem he)))) ?_
    intro heq
    exact hmright (heq ▸ List.mem_map_of_mem he)

omit [LinearOrder K] in
/-- The cells after `split` are those before it, and the two new ones. -/
theorem split_foot_perm (p q R : Nat) (left : List (Sep K)) (m : Sep K) (right : List (Sep K))
    (spansL spansR : List (Span K V)) :
    List.Perm (Span.join [internalSpan p left spansL, rootSpan R m.node,
        internalSpan q right spansR]).foot
      (R :: q :: (internalSpan p (left ++ m :: right) (spansL ++ spansR)).foot) := by
  refine List.perm_iff_count.mpr ?_
  intro a
  simp only [Span.join, internalSpan, rootSpan, List.flatMap_cons, List.flatMap_nil,
    List.flatMap_append, List.map_append, List.map_cons, List.count_append, List.count_cons,
    List.count_nil, List.append_nil]
  omega

omit [LinearOrder K] in
theorem exists_middle {seps : List (Sep K)} (hne : seps ≠ []) :
    ∃ left m right, seps = left ++ m :: right ∧ seps.length / 2 = left.length := by
  have hpos := List.length_pos_iff.mpr hne
  have hlt : seps.length / 2 < seps.length := Nat.div_lt_self hpos (by decide)
  refine ⟨seps.take (seps.length / 2), seps[seps.length / 2], seps.drop (seps.length / 2 + 1),
    ?_, ?_⟩
  · rw [← List.drop_eq_getElem_cons hlt, List.take_append_drop]
  · rw [List.length_take]
    omega

omit [LinearOrder K] in
/-- `split` writes to its node and to the middle list node, and takes two new cells. -/
theorem internalSplit_replaces {h h' : Heap K V} {p : Nat} {left : List (Sep K)} {m : Sep K}
    {right : List (Sep K)} {spansL spansR : List (Span K V)}
    (hs : Owns h (internalSpan p (left ++ m :: right) (spansL ++ spansR)))
    (hframe : Frame h h' [p, m.node]) (hfresh : h'.fresh = h.fresh + 2)
    (hdisj : ∀ u ∈ spansL ++ spansR, ∀ a ∈ u.leaves, a ∉ [p, m.node]) :
    Replaces h h' (internalSpan p (left ++ m :: right) (spansL ++ spansR))
      (Span.join [internalSpan p left spansL, rootSpan h.fresh m.node,
        internalSpan (h.fresh + 1) right spansR]) := by
  have hleaves : (Span.join [internalSpan p left spansL, rootSpan h.fresh m.node,
      internalSpan (h.fresh + 1) right spansR]).leaves =
      (internalSpan p (left ++ m :: right) (spansL ++ spansR)).leaves := by
    simp [Span.join, internalSpan, rootSpan]
  have hperm := split_foot_perm p (h.fresh + 1) h.fresh left m right spansL spansR
  have hmem : ∀ a ∈ (Span.join [internalSpan p left spansL, rootSpan h.fresh m.node,
      internalSpan (h.fresh + 1) right spansR]).foot,
      a ∈ (internalSpan p (left ++ m :: right) (spansL ++ spansR)).foot ∨
        a = h.fresh ∨ a = h.fresh + 1 := by
    intro a ha
    have ha' := hperm.subset ha
    simp only [List.mem_cons] at ha'
    tauto
  refine ⟨hframe.mono ?_, ⟨?_, ?_, ?_⟩, ?_, ?_, ?_⟩
  · intro a ha
    simp only [List.mem_cons, List.not_mem_nil, or_false] at ha
    rcases ha with rfl | rfl <;> simp [internalSpan]
  · refine hperm.nodup_iff.mpr (List.nodup_cons.mpr ⟨?_, List.nodup_cons.mpr ⟨?_, hs.nodup⟩⟩)
    · simp only [List.mem_cons, not_or]
      exact ⟨by omega, fun hin => absurd (hs.allocated _ hin) (by omega)⟩
    · intro hin
      exact absurd (hs.allocated _ hin) (by omega)
  · rw [hleaves]
    refine fun a ha => hperm.symm.subset ?_
    exact List.mem_cons_of_mem _ (List.mem_cons_of_mem _ (hs.leaves ha))
  · intro a ha
    rw [hfresh]
    rcases hmem a ha with ha | ha
    · have := hs.allocated a ha
      omega
    · omega
  · intro a ha
    exact (hmem a ha).imp id fun heq => by omega
  · intro nx hc
    rw [hleaves]
    refine hc.frame fun a ha => hframe.same a (hs.allocated a (hs.leaves ha)) ?_
    obtain ⟨u, hu, ha⟩ := List.mem_flatMap.mp ha
    exact hdisj u hu a ha
  · rw [hleaves]

theorem internalSplit_spec (hcfg : cfg.Admissible) {h : Heap K V} {d : Nat}
    {P : Heap K V → WithBot K → WithTop K → Nat → Span K V → Prop} (hP : Stable cfg Q d P)
    {lo : WithBot K} {hi : WithTop K} {p : Nat} {n : Internal} {seps : List (Sep K)}
    {tail : Option Nat} {spans : List (Span K V)}
    (hn : IsInternal (cfg.maxSize + 1) h (P h) lo hi p n seps tail spans)
    (hs : Owns h (internalSpan p seps spans)) (hfull : cfg.maxSize < seps.length) :
    ∃ h' R m k q s₁ s₂, internalSplit h p = .ok (h', R) ∧
      Halved cfg.maxSize h' (P h') lo hi p R m k q s₁ s₂ ∧
      Replaces h h' (internalSpan p seps spans) (Span.join [s₁, rootSpan R m, s₂]) ∧
      s₁.entries ++ s₂.entries = (internalSpan p seps spans).entries := by
  have h3 := hcfg.three_le
  have hmax : cfg.maxSize = cfg.order - 1 := rfl
  have hlen := hn.capacity
  obtain ⟨left, m, right, rfl, hmiddle⟩ :=
    exists_middle (List.length_pos_iff.mp (Nat.lt_of_le_of_lt (Nat.zero_le _) hfull))
  obtain ⟨h', next, hrun, hframe, hfresh, hp, hm, hR, hq, hleft, hright⟩ :=
    internalSplit_eq hn.cell hn.linked hn.size (by rw [hn.size, hmiddle]) hs.own_nodup
  have hch := hn.children
  rw [slots_split] at hch
  obtain ⟨spansL, spansR, rfl, hchL, hchR⟩ := forall₂_append_left.mp hch
  have hdisj : ∀ u ∈ spansL ++ spansR, ∀ a ∈ u.foot, a ∉ [p, m.node] := by
    intro u hu a ha hin
    apply hs.apart u hu a ha
    rcases List.mem_cons.mp hin with rfl | hin
    · exact List.mem_cons_self
    · rw [List.mem_singleton.mp hin]
      simp
  obtain ⟨hincL, hincR, hLR⟩ := List.pairwise_append.mp hn.increasing
  obtain ⟨hmR, hincR⟩ := List.pairwise_cons.mp hincR
  have hleftlen : 1 ≤ left.length ∧ left.length ≤ cfg.maxSize ∧ 1 ≤ right.length ∧
      right.length ≤ cfg.maxSize := by
    simp only [List.length_append, List.length_cons] at hlen hfull hmiddle
    omega
  obtain ⟨e, es, hcons⟩ := List.exists_cons_of_ne_nil
    (List.length_pos_iff.mp (Nat.lt_of_lt_of_le Nat.zero_lt_one hleftlen.1))
  have he : e ∈ left := hcons ▸ List.mem_cons_self
  let n₂ : Internal := ⟨m.child, next, right.length⟩
  have hL : IsInternal cfg.maxSize h' (P h') lo m.key p { n with mSize := left.length }
      left (some m.node) spansL := by
    refine ⟨hp, hleft, ?_, rfl, List.ne_nil_of_mem he, hleftlen.2.1, hincL,
      fun f hf => hn.above f (List.mem_append_left _ hf),
      fun f hf => WithTop.coe_lt_coe.mpr (hLR f hf m List.mem_cons_self), ?_⟩
    · intro a ha
      obtain rfl : m.node = a := Option.some.inj ha
      exact ⟨_, hm, le_refl _⟩
    · exact hP.forall₂_away hframe hchL fun u hu =>
        hdisj u (List.mem_append_left _ hu)
  have hRt : IsInternal cfg.maxSize h' (P h') m.key hi (h.fresh + 1) n₂ right tail
      spansR := by
    refine ⟨hq, hright, hn.beyond.frame hframe.keys, rfl, List.length_pos_iff.mp (by omega),
      hleftlen.2.2.2, hincR, fun f hf => WithBot.coe_le_coe.mpr (hmR f hf).le,
      fun f hf => hn.below f (List.mem_append_right _ (List.mem_cons_of_mem _ hf)), ?_⟩
    exact hP.forall₂_away hframe hchR fun u hu =>
      hdisj u (List.mem_append_right _ hu)
  refine ⟨h', h.fresh, m.node, m.key, h.fresh + 1, internalSpan p left spansL,
    internalSpan (h.fresh + 1) right spansR, hrun,
    ⟨hR, hm, ?_, ?_, ⟨_, _, _, _, hL, rfl⟩, ⟨_, _, _, _, hRt, rfl⟩⟩, ?_, ?_⟩
  · exact lt_of_le_of_lt (hn.above e (List.mem_append_left _ he))
      (WithBot.coe_lt_coe.mpr (hLR e he m List.mem_cons_self))
  · exact hn.below m (List.mem_append_right _ List.mem_cons_self)
  · refine internalSplit_replaces hs hframe hfresh ?_
    intro u hu a ha
    obtain ⟨sl, -, hc⟩ := forall₂_exists_of_mem_right hn.children hu
    exact hdisj u hu a ((hP.rep hc).leaves_subset ha)
  · simp [internalSpan]

/-! ## `bpt_internal::set` -/

/-- What `bpt_internal::set` leaves behind. -/
inductive InternalSet (cfg : Config) (Q : LeafPolicy K V) (h : Heap K V) (lo : WithBot K)
    (hi : WithTop K) (p : Nat) (s : Span K V) (entries : List (K × V)) :
    Heap K V × Option Nat → Prop
  | whole (h' : Heap K V) (d : Nat) (s' : Span K V)
      (node : HasInternal cfg.maxSize h' (Rep cfg Q h' d) lo hi p s')
      (replaces : Replaces h h' s s') (eq : s'.entries = entries) :
      InternalSet cfg Q h lo hi p s entries (h', none)
  | halves (h' : Heap K V) (d R m : Nat) (k : K) (q : Nat) (s₁ s₂ : Span K V)
      (root : IsNewRoot cfg Q h' d lo hi p R m k q s₁ s₂)
      (replaces : Replaces h h' s (Span.join [s₁, rootSpan R m, s₂]))
      (eq : s₁.entries ++ s₂.entries = entries) :
      InternalSet cfg Q h lo hi p s entries (h', some R)

theorem IsNewRoot.halved {h : Heap K V} {d : Nat} {lo : WithBot K} {hi : WithTop K}
    {p R m : Nat} {k : K} {q : Nat} {s₁ s₂ : Span K V}
    (hroot : IsNewRoot cfg Q h d lo hi p R m k q s₁ s₂) :
    Halved cfg.maxSize h (Rep cfg Q h d) lo hi p R m k q s₁ s₂ :=
  ⟨hroot.cell, hroot.node, hroot.above, hroot.below, hroot.left, hroot.right⟩

/-- The new root is a node over the two halves. -/
theorem Halved.root {cap : Nat} {h : Heap K V} {P : WithBot K → WithTop K → Nat → Span K V → Prop}
    {lo : WithBot K} {hi : WithTop K} {p R m : Nat} {k : K} {q : Nat} {s₁ s₂ : Span K V}
    (hroot : Halved cap h P lo hi p R m k q s₁ s₂) (hcap : 1 ≤ cap) :
    IsInternal cap h (HasInternal cap h P) lo hi R ⟨p, some m, 1⟩ [⟨m, k, q⟩] none [s₁, s₂] := by
  refine ⟨hroot.cell, ⟨rfl, none, hroot.node, rfl⟩, fun a ha => (by cases ha), rfl, by simp, hcap,
    List.pairwise_singleton _ _, ?_, ?_, .cons hroot.left (.cons hroot.right .nil)⟩
  · intro e he
    rw [List.mem_singleton.mp he]
    exact hroot.above.le
  · intro e he
    rw [List.mem_singleton.mp he]
    exact hroot.below

omit [LinearOrder K] in
/-- The cells of a new root over two halves are distinct. -/
theorem Replaces.root_nodup {h h₁ : Heap K V} {t s₁ s₂ : Span K V} {R m : Nat}
    (hr : Replaces h h₁ t (Span.join [s₁, rootSpan R m, s₂])) (k : K) (q : Nat) :
    (internalSpan R [⟨m, k, q⟩] [s₁, s₂]).foot.Nodup := by
  have hperm : List.Perm (Span.join [s₁, rootSpan R m, s₂]).foot
      (internalSpan R [⟨m, k, q⟩] [s₁, s₂]).foot := by
    have hjoin : (Span.join [s₁, rootSpan R m, s₂]).foot = s₁.foot ++ R :: m :: s₂.foot := by
      simp [Span.join, rootSpan]
    have hspan : (internalSpan R [⟨m, k, q⟩] [s₁, s₂]).foot = R :: m :: (s₁.foot ++ s₂.foot) := by
      simp [internalSpan]
    rw [hjoin, hspan]
    exact List.perm_middle.trans (List.perm_middle.cons R)
  exact hperm.nodup_iff.mp hr.owns.nodup

omit [LinearOrder K] in
/-- The new root is left out: the two halves are children of another node. -/
theorem Replaces.forgetRoot {h h₁ : Heap K V} {t s₁ s₂ : Span K V} {R m : Nat}
    (hr : Replaces h h₁ t (Span.join [s₁, rootSpan R m, s₂])) (hleft : s₁.leaves ⊆ s₁.foot)
    (hright : s₂.leaves ⊆ s₂.foot) : Replaces h h₁ t (Span.join [s₁, s₂]) := by
  refine hr.forget ?_ ?_ ?_
  · simp [Span.join, rootSpan]
  · simp [Span.join, rootSpan]
  · refine Span.join_leaves_subset ?_
    intro v hv
    rcases List.mem_cons.mp hv with rfl | hv
    · exact hleft
    · rw [List.mem_singleton.mp hv]
      exact hright

/-- The key and the right child of a new root. -/
theorem insertInternal_eq {h : Heap K V} {p R m : Nat} {k : K} {q : Nat}
    (hcell : h.read R = some (.internal ⟨p, some m, 1⟩))
    (hnode : h.read m = some (.listNode ⟨k, q, none⟩)) (fuel this : Nat) :
    insertInternal fuel h this R = insertNode fuel h this k R q := by
  simp [insertInternal, primaryKey, hcell, nonNull, derefListNode_eq hnode, derefInternal_eq hcell]

/-- What a new root becomes as a child: the whole of it, or its right child. -/
theorem IsNewRoot.graft {h h₁ : Heap K V} {d : Nat} {lo : WithBot K} {hi : WithTop K}
    {p R m : Nat} {k : K} {q : Nat} {t s₁ s₂ : Span K V} (hcap : 1 ≤ cfg.maxSize)
    (hroot : IsNewRoot cfg Q h₁ d lo hi p R m k q s₁ s₂)
    (hr : Replaces h h₁ t (Span.join [s₁, rootSpan R m, s₂])) (isFirst : Bool) :
    ∃ u, Rep cfg Q h₁ (d + 2) k hi (if isFirst then R else q) u ∧ u.entries = s₂.entries ∧
      Replaces h h₁ t (Span.join [s₁, u]) := by
  have hleft : Rep cfg Q h₁ (d + 1) lo k p s₁ := Or.inr (Or.inr hroot.left)
  have hright : Rep cfg Q h₁ (d + 1) k hi q s₂ := Or.inr (Or.inr hroot.right)
  cases isFirst with
  | true =>
    -- the left half hangs below the new root as well, in charge of no key
    let u : Span K V := internalSpan R [⟨m, k, q⟩] [⟨[], [], []⟩, s₂]
    refine ⟨u, Or.inr (Or.inr ⟨_, [⟨m, k, q⟩], none, [⟨[], [], []⟩, s₂],
      ⟨hroot.cell, ⟨rfl, none, hroot.node, rfl⟩, fun a ha => (by cases ha), rfl, by simp, hcap,
        List.pairwise_singleton _ _, fun e he => ?_, fun e he => ?_, ?_⟩, rfl⟩), ?_, ?_⟩
    · rw [List.mem_singleton.mp he]
    · rw [List.mem_singleton.mp he]
      exact hroot.below
    · exact .cons (Or.inl ⟨k, rfl, rfl, rfl⟩) (.cons hright .nil)
    · simp [u, internalSpan]
    · have hleaves : (Span.join [s₁, u]).leaves = (Span.join [s₁, rootSpan R m, s₂]).leaves := by
        simp [Span.join, u, internalSpan, rootSpan]
      have hfoot : (Span.join [s₁, u]).foot = (Span.join [s₁, rootSpan R m, s₂]).foot := by
        simp [Span.join, u, internalSpan, rootSpan]
      refine hr.forget (hfoot ▸ List.Sublist.refl _) hleaves ?_
      rw [hleaves, hfoot]
      exact hr.owns.leaves
  | false =>
    exact ⟨s₂, hright.succ, rfl, hr.forgetRoot hleft.leaves_subset hright.leaves_subset⟩

omit [LinearOrder K] in
theorem lastLow_eq (lo : WithBot K) (pre : List (Sep K)) :
    lastLow lo pre = lo ∨ ∃ e ∈ pre, lastLow lo pre = e.key := by
  induction pre generalizing lo with
  | nil => exact Or.inl rfl
  | cons e es ih =>
    rcases ih e.key with h | ⟨f, hf, h⟩
    · exact Or.inr ⟨e, List.mem_cons_self, h⟩
    · exact Or.inr ⟨f, List.mem_cons_of_mem _ hf, h⟩

/-- The slots of a node lie within its own range. -/
theorem IsInternal.le_lastLow {cap : Nat} {h : Heap K V}
    {P : WithBot K → WithTop K → Nat → Span K V → Prop} {lo : WithBot K} {hi : WithTop K}
    {p : Nat} {n : Internal} {pre post : List (Sep K)} {tail : Option Nat}
    {spans : List (Span K V)} (hn : IsInternal cap h P lo hi p n (pre ++ post) tail spans) :
    lo ≤ lastLow lo pre := by
  rcases lastLow_eq lo pre with heq | ⟨e, he, heq⟩
  · exact heq.ge
  · exact heq ▸ hn.above e (List.mem_append_left _ he)

theorem IsInternal.nextHigh_le {cap : Nat} {h : Heap K V}
    {P : WithBot K → WithTop K → Nat → Span K V → Prop} {lo : WithBot K} {hi : WithTop K}
    {p : Nat} {n : Internal} {pre post : List (Sep K)} {tail : Option Nat}
    {spans : List (Span K V)} (hn : IsInternal cap h P lo hi p n (pre ++ post) tail spans) :
    nextHigh hi post ≤ hi := by
  cases post with
  | nil => exact le_refl _
  | cons e es => exact (hn.below e (List.mem_append_right _ List.mem_cons_self)).le

/-- The end of `set`: a node that is too large is split. -/
def setEnd (cfg : Config) (h : Heap K V) (this : Nat) : Outcome Fault (Heap K V × Option Nat) := do
  let n ← derefInternal h this
  if n.mSize > cfg.maxSize then do
    let s ← internalSplit h this
    .ok (s.1, some s.2)
  else .ok (h, none)

/-- What a call of `set` on a node leaves behind, by the kind of its children.  The node is split
only if `cut`. -/
inductive NodeSet (cfg : Config) (P : Heap K V → WithBot K → WithTop K → Nat → Span K V → Prop)
    (h : Heap K V) (lo : WithBot K) (hi : WithTop K) (p : Nat) (tail : Option Nat) (cut : Prop)
    (s : Span K V) (entries : List (K × V)) : Heap K V × Option Nat → Prop
  | whole (h' : Heap K V) (n : Internal) (seps : List (Sep K)) (spans : List (Span K V))
      (node : IsInternal cfg.maxSize h' (P h') lo hi p n seps tail spans)
      (replaces : Replaces h h' s (internalSpan p seps spans))
      (eq : (internalSpan p seps spans).entries = entries) :
      NodeSet cfg P h lo hi p tail cut s entries (h', none)
  | halves (h' : Heap K V) (R m : Nat) (k : K) (q : Nat) (s₁ s₂ : Span K V) (hcut : cut)
      (root : Halved cfg.maxSize h' (P h') lo hi p R m k q s₁ s₂)
      (replaces : Replaces h h' s (Span.join [s₁, rootSpan R m, s₂]))
      (eq : s₁.entries ++ s₂.entries = entries) :
      NodeSet cfg P h lo hi p tail cut s entries (h', some R)

section Kind

variable {h h₁ h₂ : Heap K V} {d : Nat}
  {P : Heap K V → WithBot K → WithTop K → Nat → Span K V → Prop} {lo : WithBot K}
  {hi : WithTop K} {p : Nat} {tail : Option Nat} {s : Span K V} {entries : List (K × V)}

theorem NodeSet.imp {cut cut' : Prop} {r : Heap K V × Option Nat} (himp : cut → cut')
    (hset : NodeSet cfg P h lo hi p tail cut s entries r) :
    NodeSet cfg P h lo hi p tail cut' s entries r := by
  cases hset with
  | whole h' n seps spans node replaces eq => exact .whole h' n seps spans node replaces eq
  | halves h' R m k q s₁ s₂ hcut root replaces eq =>
    exact .halves h' R m k q s₁ s₂ (himp hcut) root replaces eq

theorem NodeSet.internalSet {cut : Prop} {r : Heap K V × Option Nat}
    (hset : NodeSet cfg (fun h => Rep cfg Q h d) h lo hi p tail cut s entries r) :
    InternalSet cfg Q h lo hi p s entries r := by
  cases hset with
  | whole h' n seps spans node replaces eq =>
    exact .whole h' d _ ⟨n, seps, tail, spans, node, rfl⟩ replaces eq
  | halves h' R m k q s₁ s₂ hcut root replaces eq =>
    exact .halves h' d R m k q s₁ s₂
      ⟨root.cell, root.node, root.above, root.below, root.left, root.right⟩ replaces eq

theorem setEnd_spec (hcfg : cfg.Admissible) (hP : Stable cfg Q d P) {n : Internal}
    {seps : List (Sep K)} {spans : List (Span K V)}
    (hn : IsInternal (cfg.maxSize + 1) h₂ (P h₂) lo hi p n seps tail spans)
    (hr : Replaces h h₂ s (internalSpan p seps spans))
    (heq : (internalSpan p seps spans).entries = entries) :
    ∃ r, setEnd cfg h₂ p = .ok r ∧
      NodeSet cfg P h lo hi p tail (cfg.maxSize < n.mSize) s entries r := by
  have hsize := hn.size
  simp only [setEnd, derefInternal_eq hn.cell, Outcome.ok_bind]
  split
  · rename_i hfull
    obtain ⟨h', R, m, k, q, s₁, s₂, hrun, hroot, hrepl, hent⟩ :=
      internalSplit_spec hcfg hP hn hr.owns (by omega)
    refine ⟨(h', some R), by simp [hrun], .halves h' R m k q s₁ s₂ hfull hroot
      (hr.trans hrepl) ?_⟩
    exact hent.trans heq
  · exact ⟨(h₂, none), rfl, .whole h₂ n seps spans { hn with capacity := by omega } hr heq⟩

/-- What the middle of `set` leaves behind: the node `n` holds one separator more when the child
was cut, which may be one too many. -/
def Grown (cfg : Config) (P : Heap K V → WithBot K → WithTop K → Nat → Span K V → Prop)
    (h h₂ : Heap K V) (lo : WithBot K) (hi : WithTop K) (p : Nat) (n : Internal)
    (tail : Option Nat) (cut : Prop) (s : Span K V) (entries : List (K × V)) : Prop :=
  ∃ n' seps spans, IsInternal (cfg.maxSize + 1) h₂ (P h₂) lo hi p n' seps tail spans ∧
    Replaces h h₂ s (internalSpan p seps spans) ∧ (internalSpan p seps spans).entries = entries ∧
    (n'.mSize = n.mSize ∨ n'.mSize = n.mSize + 1 ∧ cut)

variable {n : Internal} {pre post : List (Sep K)} {before after : List (Span K V)} {t : Span K V}
  {key : K} {val : V}

theorem grown_whole (hP : Stable cfg Q d P)
    (hn : IsInternal cfg.maxSize h (P h) lo hi p n (pre ++ post) tail (before ++ t :: after))
    (hs : Owns h (internalSpan p (pre ++ post) (before ++ t :: after)))
    (hroute : Route h (P h) lo hi p n key pre post before t after) {t' : Span K V}
    (hr : Replaces h h₁ t t')
    (hc : P h₁ (lastLow lo pre) (nextHigh hi post) (lastChild n.mLesser pre) t')
    (heq : t'.entries = upsert key val t.entries) (cut : Prop) :
    Grown cfg P h h₁ lo hi p n tail cut (internalSpan p (pre ++ post) (before ++ t :: after))
      (upsert key val (internalSpan p (pre ++ post) (before ++ t :: after)).entries) := by
  obtain ⟨hn', hr'⟩ := hn.childWhole hP hs hroute.hole hr hc
  refine ⟨n, _, _, { hn' with capacity := Nat.le_succ_of_le hn'.capacity }, hr', ?_, Or.inl rfl⟩
  exact (hroute.hole.mono fun _ _ _ _ => hP.rep).entries_upsert [t'] hroute.before hroute.after
    (by rw [Span.join_singleton]; exact heq)

theorem grown_halves (hcfg : cfg.Admissible) (hP : Stable cfg Q d P)
    (hn : IsInternal cfg.maxSize h (P h) lo hi p n (pre ++ post) tail (before ++ t :: after))
    (hs : Owns h (internalSpan p (pre ++ post) (before ++ t :: after)))
    (hroute : Route h (P h) lo hi p n key pre post before t after) {t₁ u : Span K V} {k : K}
    (first afterwards : Nat)
    (hlow : lastLow lo pre < k) (hhigh : (k : WithTop K) < nextHigh hi post)
    (hr : Replaces h h₁ t (Span.join [t₁, u]))
    (hleft : P h₁ (lastLow lo pre) k (lastChild n.mLesser pre) t₁)
    (hright : P h₁ k (nextHigh hi post) (if pre.isEmpty then first else afterwards) u)
    (heq : t₁.entries ++ u.entries = upsert key val t.entries) {cut : Prop} (hcut : cut) :
    ∃ h₂, Returns (fun fuel => insertNode fuel h₁ p k first afterwards) h₂ ∧
      Grown cfg P h h₂ lo hi p n tail cut (internalSpan p (pre ++ post) (before ++ t :: after))
        (upsert key val (internalSpan p (pre ++ post) (before ++ t :: after)).entries) := by
  have h3 := hcfg.three_le
  have hlt := hcfg.lt_size
  have hmax : cfg.maxSize = cfg.order - 1 := rfl
  obtain ⟨h₂, n', seps', hrun, hsize, hn', hr'⟩ := hn.childHalves hP first afterwards hs
    hroute.hole (by omega) hlow (hn.le_lastLow.trans hlow.le) hhigh
    (lt_of_lt_of_le hhigh hn.nextHigh_le) hr hleft hright
  refine ⟨h₂, hrun, n', seps', _, hn', hr', ?_, Or.inr ⟨hsize, hcut⟩⟩
  exact (hroute.hole.mono fun _ _ _ _ => hP.rep).entries_upsert [t₁, u] hroute.before hroute.after
    (by simpa [Span.join] using heq)

end Kind

/-- The middle of `set`: the pair goes into the child. -/
def setChild (cfg : Config) (fuel : Nat) (h : Heap K V) (this child : Nat) (key : K) (val : V) :
    Bool → Outcome Fault (Heap K V)
  | true => do
      let r ← leafInsert cfg h child key val
      match r.2 with
      | none => .ok r.1
      | some newLeaf => insertLeaf fuel r.1 this newLeaf
  | false => do
      let r ← internalSet cfg fuel h child key val
      match r.2 with
      | none => .ok r.1
      | some newInternal => insertInternal fuel r.1 this newInternal

/-- `set` is its three parts one after the other. -/
theorem internalSet_succ (fuel : Nat) (h : Heap K V) (this : Nat) (key : K) (val : V) :
    internalSet cfg (fuel + 1) h this key val =
      (do
        let child ← getChildGe fuel h this key
        let leaf ← isLeaf h child
        let h' ← setChild cfg fuel h this child key val leaf
        setEnd cfg h' this) := by
  simp only [internalSet]
  cases getChildGe fuel h this key with
  | fault f => rfl
  | outOfFuel => rfl
  | ok child =>
    simp only [Outcome.ok_bind]
    cases isLeaf h child with
    | fault f => rfl
    | outOfFuel => rfl
    | ok leaf =>
      cases leaf with
      | true =>
        simp only [Outcome.ok_bind, if_true, setChild]
        cases leafInsert cfg h child key val with
        | fault f => rfl
        | outOfFuel => rfl
        | ok r =>
          obtain ⟨h', q⟩ := r
          cases q <;> rfl
      | false =>
        simp only [Outcome.ok_bind, setChild]
        cases internalSet cfg fuel h child key val with
        | fault f => rfl
        | outOfFuel => rfl
        | ok r =>
          obtain ⟨h', q⟩ := r
          cases q <;> rfl

theorem internalSet_returns {h h₂ : Heap K V} {p child : Nat} {key : K} {val : V} {leaf : Bool}
    {r : Heap K V × Option Nat} (hchild : Returns (fun fuel => getChildGe fuel h p key) child)
    (hleaf : isLeaf h child = .ok leaf)
    (hset : Returns (fun fuel => setChild cfg fuel h p child key val leaf) h₂)
    (hend : setEnd cfg h₂ p = .ok r) :
    Returns (fun fuel => internalSet cfg fuel h p key val) r := by
  refine Returns.of_succ ?_
  simp only [internalSet_succ]
  refine Returns.bind hchild ?_
  simp only [hleaf, Outcome.ok_bind]
  exact Returns.bind hset (Returns.const hend)

/-- What the middle of `set` leaves behind: the node may hold one separator too many. -/
def ChildSet (cfg : Config) (Q : LeafPolicy K V) (h h₂ : Heap K V) (lo : WithBot K)
    (hi : WithTop K) (p : Nat) (s : Span K V) (entries : List (K × V)) : Prop :=
  ∃ d n seps tail spans,
    IsInternal (cfg.maxSize + 1) h₂ (Rep cfg Q h₂ d) lo hi p n seps tail spans ∧
    Replaces h h₂ s (internalSpan p seps spans) ∧ (internalSpan p seps spans).entries = entries

section Child

variable {h : Heap K V} {d : Nat} {lo : WithBot K} {hi : WithTop K} {p : Nat} {n : Internal}
  {pre post : List (Sep K)} {tail : Option Nat} {before after : List (Span K V)} {t : Span K V}
  {key : K} {val : V}

/-- The child is a leaf: it takes the pair, and the node takes its right half. -/
theorem setChild_leaf (hcfg : cfg.Admissible)
    {P : Heap K V → WithBot K → WithTop K → Nat → Span K V → Prop} (hP : Stable cfg Q d P)
    (hleaf : ∀ {h : Heap K V} {lo : WithBot K} {hi : WithTop K} {p : Nat} {l : Leaf K V},
      IsLeaf cfg.maxSize Q h lo hi p l → P h lo hi p (leafSpan p l)) {l : Leaf K V}
    (hl : IsLeaf cfg.maxSize Q h (lastLow lo pre) (nextHigh hi post) (lastChild n.mLesser pre) l)
    (ht : t = leafSpan (lastChild n.mLesser pre) l)
    (hn : IsInternal cfg.maxSize h (P h) lo hi p n (pre ++ post) tail (before ++ t :: after))
    (hs : Owns h (internalSpan p (pre ++ post) (before ++ t :: after)))
    (hroute : Route h (P h) lo hi p n key pre post before t after) (val : V) :
    ∃ h₂, Returns (fun fuel => setChild cfg fuel h p (lastChild n.mLesser pre) key val true) h₂ ∧
      Grown cfg P h h₂ lo hi p n tail
        (cfg.maxSize ≤ l.mList.size ∧ l.mList.getValPtr key = none)
        (internalSpan p (pre ++ post) (before ++ t :: after))
        (upsert key val (internalSpan p (pre ++ post) (before ++ t :: after)).entries) := by
  subst ht
  obtain ⟨r, hrun, hres⟩ := leafInsert_spec hcfg hl val hroute.low hroute.high
  cases hres with
  | whole h₁ l' leaf replaces nodes =>
    refine ⟨h₁, ⟨0, fun fuel _ => ?_⟩, grown_whole hP hn hs hroute replaces (hleaf leaf) nodes _⟩
    simp [setChild, hrun]
  | halves h₁ q k l₁ l₂ above below primary left right replaces nodes =>
    obtain ⟨h₂, hins, hset⟩ := grown_halves hcfg hP hn hs hroute q q above below replaces
      (hleaf left) (by rw [ite_self]; exact hleaf right) nodes (leafInsert_cut hcfg hl hrun)
    refine ⟨h₂, hins.congr ?_, hset⟩
    intro fuel
    simp [setChild, hrun, insertLeaf, primary]

theorem Grown.childSet {h₂ : Heap K V} {cut : Prop} {s : Span K V} {entries : List (K × V)}
    (hg : Grown cfg (fun h => Rep cfg Q h d) h h₂ lo hi p n tail cut s entries) :
    ChildSet cfg Q h h₂ lo hi p s entries := by
  obtain ⟨n', seps, spans, hn, hr, heq, -⟩ := hg
  exact ⟨d, n', seps, tail, spans, hn, hr, heq⟩

theorem childSet_whole
    (hn : IsInternal cfg.maxSize h (Rep cfg Q h d) lo hi p n (pre ++ post) tail
      (before ++ t :: after))
    (hs : Owns h (internalSpan p (pre ++ post) (before ++ t :: after)))
    (hroute : Route h (Rep cfg Q h d) lo hi p n key pre post before t after) {h₁ : Heap K V}
    (d₁ : Nat) {t' : Span K V} (hr : Replaces h h₁ t t')
    (hc : Rep cfg Q h₁ d₁ (lastLow lo pre) (nextHigh hi post) (lastChild n.mLesser pre) t')
    (heq : t'.entries = upsert key val t.entries) :
    ChildSet cfg Q h h₁ lo hi p (internalSpan p (pre ++ post) (before ++ t :: after))
      (upsert key val (internalSpan p (pre ++ post) (before ++ t :: after)).entries) := by
  have hle := Nat.le_max_left d d₁
  have hgrown := grown_whole (Rep.stable cfg Q (max d d₁)) (hn.mono fun _ _ _ _ => Rep.mono hle) hs
    (hroute.mono fun _ _ _ _ => Rep.mono hle) hr (hc.mono (Nat.le_max_right d d₁)) heq True
  exact hgrown.childSet

theorem childSet_halves (hcfg : cfg.Admissible)
    (hn : IsInternal cfg.maxSize h (Rep cfg Q h d) lo hi p n (pre ++ post) tail
      (before ++ t :: after))
    (hs : Owns h (internalSpan p (pre ++ post) (before ++ t :: after)))
    (hroute : Route h (Rep cfg Q h d) lo hi p n key pre post before t after) {h₁ : Heap K V}
    (d₁ : Nat) {t₁ u : Span K V} {k : K} (first afterwards : Nat) (hlow : lastLow lo pre < k)
    (hhigh : (k : WithTop K) < nextHigh hi post) (hr : Replaces h h₁ t (Span.join [t₁, u]))
    (hleft : Rep cfg Q h₁ d₁ (lastLow lo pre) k (lastChild n.mLesser pre) t₁)
    (hright : Rep cfg Q h₁ d₁ k (nextHigh hi post) (if pre.isEmpty then first else afterwards) u)
    (heq : t₁.entries ++ u.entries = upsert key val t.entries) :
    ∃ h₂, Returns (fun fuel => insertNode fuel h₁ p k first afterwards) h₂ ∧
      ChildSet cfg Q h h₂ lo hi p (internalSpan p (pre ++ post) (before ++ t :: after))
        (upsert key val (internalSpan p (pre ++ post) (before ++ t :: after)).entries) := by
  have hle := Nat.le_max_left d d₁
  have hge := Nat.le_max_right d d₁
  obtain ⟨h₂, hrun, hgrown⟩ := grown_halves hcfg (Rep.stable cfg Q (max d d₁))
    (hn.mono fun _ _ _ _ => Rep.mono hle) hs (hroute.mono fun _ _ _ _ => Rep.mono hle) first
    afterwards hlow hhigh hr (hleft.mono hge) (hright.mono hge) heq trivial
  exact ⟨h₂, hrun, hgrown.childSet⟩

end Child

theorem internalSet_spec (hcfg : cfg.Admissible) {h : Heap K V} {d : Nat} {lo : WithBot K}
    {hi : WithTop K} {p : Nat} {s : Span K V}
    (hr : HasInternal cfg.maxSize h (Rep cfg Q h d) lo hi p s) (hnd : s.foot.Nodup) (key : K)
    (val : V) (hlo : lo ≤ key) (hhi : (key : WithTop K) < hi) :
    ∃ r, Returns (fun fuel => internalSet cfg fuel h p key val) r ∧
      InternalSet cfg Q h lo hi p s (upsert key val s.entries) r := by
  have h3 := hcfg.three_le
  have hmax : cfg.maxSize = cfg.order - 1 := rfl
  induction d generalizing lo hi p s with
  | zero => exact absurd hr HasInternal.not_zero
  | succ d ih =>
    obtain ⟨n, seps, tail, spans, hn, rfl⟩ := hr
    obtain ⟨pre, post, before, t, after, rfl, rfl, hroute⟩ := hn.exists_route hlo hhi
    have hs := (Rep.stable cfg Q (d + 1)).owns hn hnd
    -- the child takes the pair, and the node takes the child's right half
    have hmiddle : ∃ leaf h₂, isLeaf h (lastChild n.mLesser pre) = .ok leaf ∧
        Returns (fun fuel => setChild cfg fuel h p (lastChild n.mLesser pre) key val leaf) h₂ ∧
        ChildSet cfg Q h h₂ lo hi p (internalSpan p (pre ++ post) (before ++ t :: after))
          (upsert key val (internalSpan p (pre ++ post) (before ++ t :: after)).entries) := by
      rcases hroute.hole.child with hv | ⟨l, hl, rfl⟩ | hc
      · exact (hv.elim hroute.low hroute.high).elim
      · obtain ⟨h₂, hset, hgrown⟩ := setChild_leaf hcfg (Rep.stable cfg Q (d + 1))
          (fun hl => Or.inr (Or.inl ⟨_, hl, rfl⟩)) hl rfl hn hs hroute val
        exact ⟨true, h₂, isLeaf_of_leaf hl.cell, hset, hgrown.childSet⟩
      · obtain ⟨r, hrun, hres⟩ := ih hc hs.child_nodup hroute.low hroute.high
        have hnotLeaf : isLeaf h (lastChild n.mLesser pre) = .ok false := by
          obtain ⟨n₁, seps₁, tail₁, spans₁, hn₁, -⟩ := hc
          exact isLeaf_of_internal hn₁.cell
        cases hres with
        | whole h₁ d₁ t' node replaces heq =>
          refine ⟨false, h₁, hnotLeaf, ?_, childSet_whole hn hs hroute (d₁ + 1)
            replaces (Or.inr (Or.inr node)) heq⟩
          exact Returns.bind hrun (Returns.const rfl)
        | halves h₁ d₁ R m k q s₁ s₂ root replaces heq =>
          obtain ⟨u, hu, huent, hru⟩ := root.graft (by omega) replaces pre.isEmpty
          obtain ⟨h₂, hins, hset⟩ := childSet_halves hcfg hn hs hroute (d₁ + 2) R q
            root.above root.below hru
            (Rep.mono (Nat.le_succ (d₁ + 1)) (Or.inr (Or.inr root.left))) hu
            (by rw [huent]; exact heq)
          refine ⟨false, h₂, hnotLeaf, Returns.bind hrun (hins.congr ?_), hset⟩
          intro fuel
          exact insertInternal_eq root.cell root.node fuel p
    obtain ⟨leaf, h₂, hleaf, hset, d₂, n', seps', tail', spans', hn', hr', heq⟩ := hmiddle
    obtain ⟨r, hend, hres⟩ := setEnd_spec hcfg (Rep.stable cfg Q d₂) hn' hr' heq
    exact ⟨r, internalSet_returns hroute.child hleaf hset hend, hres.internalSet⟩

end StateDb.Bpt
