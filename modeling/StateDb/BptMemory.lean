/-
  StateDb/BptMemory.lean
  ======================
  **What fresh memory held** (`list.h`: `m_size`; `leaf.h`, `bpt_internal.h`: the constructors).

  `m_size` of a `leaf_list` has no initialiser.  A leaf that `leaf::split` makes is given a counter
  before anyone reads it, and one that it deletes is not read at all.  So two runs of a tree differ
  in what they read at two places only: in the leaf of the first pair, and in the lesser leaf next
  to it.

  Two trees are `Twin` when their cells are the same but for the counters of leaves that are
  `Overfull`: whatever was there was so large that the next `set` on such a leaf comes to a null
  pointer.  Every call does the same with them, result by result (`Tree.accessAll_twin`).
-/
import StateDb.BptCells

namespace StateDb.Bpt

open Lib

variable {K V : Type}

/-! ## Leaves with a counter that is far off -/

/-- The counter exceeds the number of pairs by so much that a pair can come in at any time, up to
`room` pairs, and the leaf is split at once. -/
structure Overfull (cap room : Nat) (l : LeafList K V) : Prop where
  two_le : 2 ≤ cap
  room_le : room ≤ 2
  few : l.nodes.length < room
  counter : ∃ extra, cap ≤ extra ∧ extra + room < sizeMod ∧ l.mSize = extra + l.nodes.length

inductive TwinLeaf (cap : Nat) : Leaf K V → Leaf K V → Prop
  | same (l : Leaf K V) : TwinLeaf cap l l
  | overfull (room : Nat) (mNext : Option Nat) (l l' : LeafList K V) : l.nodes = l'.nodes →
      Overfull cap room l → Overfull cap room l' → TwinLeaf cap ⟨mNext, l⟩ ⟨mNext, l'⟩

inductive TwinCell (cap : Nat) : Cell K V → Cell K V → Prop
  | leaf (l l' : Leaf K V) : TwinLeaf cap l l' → TwinCell cap (.leaf l) (.leaf l')
  | internal (n : Internal) : TwinCell cap (.internal n) (.internal n)
  | listNode (n : ListNode K) : TwinCell cap (.listNode n) (.listNode n)

theorem TwinCell.refl (cap : Nat) (c : Cell K V) : TwinCell cap c c := by
  cases c with
  | leaf l => exact .leaf l l (.same l)
  | internal n => exact .internal n
  | listNode n => exact .listNode n

abbrev Twin (cap : Nat) (h h' : Heap K V) : Prop := h.Alike (TwinCell cap) h'

theorem TwinLeaf.mNext {cap : Nat} {l l' : Leaf K V} (h : TwinLeaf cap l l') :
    l.mNext = l'.mNext := by
  cases h <;> rfl

theorem TwinLeaf.nodes {cap : Nat} {l l' : Leaf K V} (h : TwinLeaf cap l l') :
    l.mList.nodes = l'.mList.nodes := by
  cases h with
  | same => rfl
  | overfull room mNext l l' hnodes hl hl' => exact hnodes

section Leaves

variable [LinearOrder K] {cap room : Nat} {l l' : LeafList K V}

/-- `set` changes a value or puts a pair in. -/
theorem LeafList.set_counter (l : LeafList K V) (key : K) (val : V) :
    (l.nodes ≠ [] ∧ (l.set key val).nodes.length = l.nodes.length ∧
        (l.set key val).mSize = l.mSize) ∨
      ((l.set key val).nodes.length = l.nodes.length + 1 ∧
        (l.set key val).mSize = sizeInc l.mSize) := by
  obtain ⟨nodes, size⟩ := l
  cases nodes with
  | nil => exact Or.inr ⟨rfl, rfl⟩
  | cons root rest =>
    have hlen := setFrom_length key val root rest
    simp only [set]
    split
    · exact Or.inr ⟨rfl, rfl⟩
    · split
      · rename_i hadd
        rw [if_pos hadd] at hlen
        exact Or.inr ⟨hlen, rfl⟩
      · rename_i hadd
        rw [if_neg hadd] at hlen
        exact Or.inl ⟨List.cons_ne_nil _ _, hlen, rfl⟩

omit [LinearOrder K] in
/-- A counter twice the number of nodes or more: `split` finds no node to cut behind, or nothing for
the right half. -/
theorem LeafList.split_beyond {l : LeafList K V} (htwo : 2 ≤ l.mSize)
    (hlen : 2 * l.nodes.length ≤ l.mSize) :
    l.split = .fault .nullPointer ∨ ∃ left size, l.split = .ok (some (left, ⟨[], size⟩)) := by
  have hhalf : l.mSize / 2 ≠ 0 := by omega
  have hdrop : (l.nodes.drop (l.mSize / 2 - 1)).length ≤ 1 := by
    rw [List.length_drop]
    omega
  simp only [LeafList.split, if_neg hhalf]
  split
  · exact Or.inl rfl
  · rename_i lastNode after hafter
    rw [hafter, List.length_cons] at hdrop
    obtain rfl : after = [] := List.length_eq_zero_iff.mp (by omega)
    exact Or.inr ⟨_, _, rfl⟩

/-- After `set` the counter is above the bound, and twice the number of nodes. -/
theorem Overfull.set_split (h : Overfull cap room l) (key : K) (val : V) :
    cap < (l.set key val).size ∧ ((l.set key val).split = .fault .nullPointer ∨
      ∃ left size, (l.set key val).split = .ok (some (left, ⟨[], size⟩))) := by
  obtain ⟨htwo, hroom, hfew, extra, hcap, hlt, hsize⟩ := h
  obtain ⟨hone, hle, hset⟩ : 1 ≤ (l.set key val).nodes.length ∧ (l.set key val).nodes.length ≤ 2 ∧
      (l.set key val).mSize = extra + (l.set key val).nodes.length := by
    rcases l.set_counter key val with ⟨hne, hlen, hsame⟩ | ⟨hlen, hinc⟩
    · have hpos := List.length_pos_iff.mpr hne
      rw [hlen, hsame]
      exact ⟨hpos, by omega, hsize⟩
    · rw [hlen, hinc, hsize, sizeInc_of_lt (by omega)]
      exact ⟨by omega, by omega, by omega⟩
  exact ⟨by rw [LeafList.size]; omega, LeafList.split_beyond (by omega) (by omega)⟩

/-- `delete_key` keeps the difference. -/
theorem LeafList.deleteKey_twin (hnodes : l.nodes = l'.nodes) (hl : Overfull cap room l)
    (hl' : Overfull cap room l') (key : K) :
    Outcome.Related (fun r r' => r.1.nodes = r'.1.nodes ∧ Overfull cap room r.1 ∧
      Overfull cap room r'.1 ∧ r.2 = r'.2) (l.deleteKey key) (l'.deleteKey key) := by
  obtain ⟨htwo, hroom, hfew, extra, hcap, hlt, hsize⟩ := hl
  obtain ⟨-, -, hfew', extra', hcap', hlt', hsize'⟩ := hl'
  obtain ⟨nodes, size⟩ := l
  obtain ⟨nodes', size'⟩ := l'
  dsimp only at hnodes hfew hsize hsize'
  subst hnodes
  match nodes with
  | [] => exact .fault _
  | [root] =>
    simp only [List.length_singleton] at hfew hsize hsize'
    subst hsize hsize'
    simp only [deleteKey, deleteAfter]
    split
    · refine .ok ⟨rfl, ⟨htwo, hroom, Nat.zero_lt_of_lt hfew, extra, hcap, hlt, ?_⟩,
        ⟨htwo, hroom, Nat.zero_lt_of_lt hfew, extra', hcap', hlt', ?_⟩, rfl⟩
      · exact sizeDec_succ (by omega)
      · exact sizeDec_succ (by omega)
    · refine .ok ⟨rfl, ⟨htwo, hroom, hfew, extra, hcap, hlt, ?_⟩,
        ⟨htwo, hroom, hfew, extra', hcap', hlt', ?_⟩, rfl⟩
      · exact sizeInc_sizeDec (by omega)
      · exact sizeInc_sizeDec (by omega)
  | _ :: _ :: _ =>
    simp only [List.length_cons] at hfew
    omega

omit [LinearOrder K] in
theorem Overfull.mSize_ne_zero (h : Overfull cap room l) : l.mSize ≠ 0 := by
  obtain ⟨htwo, -, -, extra, hcap, -, hsize⟩ := h
  omega

end Leaves

/-! ## Walks -/

section Walks

variable {cap : Nat} {h h' : Heap K V} (ht : Twin cap h h')

include ht

theorem derefLeaf_twin (a : Nat) : Outcome.Related (TwinLeaf cap) (derefLeaf h a)
    (derefLeaf h' a) := by
  have hr := ht.read a
  unfold derefLeaf
  generalize h.read a = c at hr ⊢
  generalize h'.read a = c' at hr ⊢
  cases hr with
  | none => exact .fault _
  | some hc =>
    cases hc with
    | leaf l l' hl => exact .ok hl
    | internal n => exact .fault _
    | listNode n => exact .fault _

theorem derefInternal_twin (a : Nat) : derefInternal h a = derefInternal h' a := by
  have hr := ht.read a
  unfold derefInternal
  generalize h.read a = c at hr ⊢
  generalize h'.read a = c' at hr ⊢
  cases hr with
  | none => rfl
  | some hc => cases hc <;> rfl

theorem derefListNode_twin (a : Nat) : derefListNode h a = derefListNode h' a := by
  have hr := ht.read a
  unfold derefListNode
  generalize h.read a = c at hr ⊢
  generalize h'.read a = c' at hr ⊢
  cases hr with
  | none => rfl
  | some hc => cases hc <;> rfl

theorem isLeaf_twin (a : Nat) : isLeaf h a = isLeaf h' a := by
  have hr := ht.read a
  unfold isLeaf
  generalize h.read a = c at hr ⊢
  generalize h'.read a = c' at hr ⊢
  cases hr with
  | none => rfl
  | some hc => cases hc <;> rfl

/-- The counters are the same, or neither is zero. -/
theorem baseSize_twin (a : Nat) :
    Outcome.Related (fun size size' => size = 0 ↔ size' = 0) (baseSize h a) (baseSize h' a) := by
  have hr := ht.read a
  unfold baseSize
  generalize h.read a = c at hr ⊢
  generalize h'.read a = c' at hr ⊢
  cases hr with
  | none => exact .fault _
  | some hc =>
    cases hc with
    | leaf l l' hl =>
      refine .ok ?_
      cases hl with
      | same => exact Iff.rfl
      | overfull room mNext l l' hnodes hl hl' =>
        exact iff_of_false hl.mSize_ne_zero hl'.mSize_ne_zero
    | internal n => exact .ok Iff.rfl
    | listNode n => exact .fault _

theorem skip_twin (count : Nat) (node : Option Nat) : skip h count node = skip h' count node := by
  induction count generalizing node with
  | zero => rfl
  | succ count ih =>
    cases node with
    | none => rfl
    | some a => simp only [skip, derefListNode_twin ht, ih]

variable [LinearOrder K]

omit [LinearOrder K] in
theorem primaryKey_twin (a : Nat) : primaryKey h a = primaryKey h' a := by
  have hr := ht.read a
  unfold primaryKey
  generalize h.read a = c at hr ⊢
  generalize h'.read a = c' at hr ⊢
  cases hr with
  | none => rfl
  | some hc =>
    cases hc with
    | leaf l l' hl => simp only [LeafList.getRootKey, hl.nodes]
    | internal n => simp only [derefListNode_twin ht]
    | listNode n => rfl

theorem getChildLnGe_twin (fuel node : Nat) (key : K) :
    getChildLnGe fuel h node key = getChildLnGe fuel h' node key := by
  induction fuel generalizing node with
  | zero => rfl
  | succ fuel ih => simp only [getChildLnGe, derefListNode_twin ht, ih]

theorem getChildGe_twin (fuel this : Nat) (key : K) :
    getChildGe fuel h this key = getChildGe fuel h' this key := by
  simp only [getChildGe, derefInternal_twin ht, derefListNode_twin ht, getChildLnGe_twin ht]

theorem getValPtr_twin (fuel this : Nat) (key : K) :
    getValPtr fuel h this key = getValPtr fuel h' this key := by
  induction fuel generalizing this with
  | zero => rfl
  | succ fuel ih =>
    simp only [getValPtr, isLeaf_twin ht, getChildGe_twin ht, ih]
    refine (Outcome.Related.bind_same rfl fun leaf => .ite Iff.rfl ?_ (.of_eq rfl)).eq
    refine (derefLeaf_twin ht this).bind fun l l' hl => .of_eq ?_
    rw [LeafList.getValPtr, LeafList.getValPtr, hl.nodes]

omit [LinearOrder K] in
theorem leafIterate_twin (fuel : Nat) (this : Option Nat) :
    leafIterate fuel h this = leafIterate fuel h' this := by
  induction fuel generalizing this with
  | zero => rfl
  | succ fuel ih =>
    cases this with
    | none => rfl
    | some a =>
      simp only [leafIterate, ih]
      refine ((derefLeaf_twin ht a).bind fun l l' hl => .of_eq ?_).eq
      rw [hl.mNext, hl.nodes]

omit [LinearOrder K] in
theorem baseIterate_twin (fuel this : Nat) :
    baseIterate fuel h this = baseIterate fuel h' this := by
  induction fuel generalizing this with
  | zero => rfl
  | succ fuel ih =>
    simp only [baseIterate, isLeaf_twin ht, leafIterate_twin ht, derefInternal_twin ht, ih]

end Walks

/-! ## `set` -/

/-- Two heaps and the same address, or none. -/
def TwinAt {α : Type} (cap : Nat) (r r' : Heap K V × α) : Prop := Twin cap r.1 r'.1 ∧ r.2 = r'.2

section Set

variable [LinearOrder K] {cfg cfg' : Config} (hmax : cfg'.maxSize = cfg.maxSize) {h h' : Heap K V}
  (ht : Twin cfg.maxSize h h')

include ht

theorem insertNode_twin (fuel this : Nat) (key : K) (first after : Nat) :
    Outcome.Related (Twin cfg.maxSize) (insertNode fuel h this key first after)
      (insertNode fuel h' this key first after) := by
  simp only [insertNode, derefInternal_twin ht, derefListNode_twin ht, getChildLnGe_twin ht,
    ht.fresh]
  refine .bind_same rfl fun n => .bind_same rfl fun root => .bind_same rfl fun r =>
    .ite Iff.rfl ?_ ?_
  · exact .ok ((ht.alloc (.listNode _)).write (.internal _) this)
  · refine .bind_same rfl fun node => .bind_same rfl fun m => .ok ?_
    exact ((ht.alloc (.listNode _)).write (.listNode _) node).write (.internal _) this

theorem insertLeaf_twin (fuel this l : Nat) :
    Outcome.Related (Twin cfg.maxSize) (insertLeaf fuel h this l) (insertLeaf fuel h' this l) := by
  simp only [insertLeaf, primaryKey_twin ht]
  exact .bind_same rfl fun key => insertNode_twin ht fuel this key l l

theorem insertInternal_twin (fuel this iN : Nat) :
    Outcome.Related (Twin cfg.maxSize) (insertInternal fuel h this iN)
      (insertInternal fuel h' this iN) := by
  simp only [insertInternal, primaryKey_twin ht, derefInternal_twin ht, derefListNode_twin ht]
  exact .bind_same rfl fun key => .bind_same rfl fun n => .bind_same rfl fun root =>
    .bind_same rfl fun r => insertNode_twin ht fuel this key iN r.val

omit [LinearOrder K] in
theorem internalSplit_twin (this : Nat) :
    Outcome.Related (TwinAt cfg.maxSize) (internalSplit h this) (internalSplit h' this) := by
  simp only [internalSplit, derefInternal_twin ht, skip_twin ht, derefListNode_twin ht,
    CellStore.fresh_alloc, ht.fresh]
  refine .bind_same rfl fun n => .bind_same rfl fun mid => .bind_same rfl fun middleNode =>
    .bind_same rfl fun m => .ok ⟨?_, rfl⟩
  exact (((ht.alloc (.internal _)).alloc (.internal _)).write (.listNode _) middleNode).write
    (.internal _) this

omit [LinearOrder K] in
include hmax in
theorem setEnd_twin (this : Nat) :
    Outcome.Related (TwinAt cfg.maxSize) (setEnd cfg h this) (setEnd cfg' h' this) := by
  simp only [setEnd, derefInternal_twin ht, hmax]
  refine .bind_same rfl fun n => .ite Iff.rfl ?_ (.ok ⟨ht, rfl⟩)
  refine (internalSplit_twin ht this).bind ?_
  rintro ⟨h₁, root⟩ ⟨h₁', root'⟩ ⟨ht₁, hroot⟩
  exact .ok ⟨ht₁, congrArg some hroot⟩

include hmax in
/-- A leaf that both runs have. -/
theorem leafInsert_same {this : Nat} {l : Leaf K V} (hl : derefLeaf h this = .ok l)
    (hl' : derefLeaf h' this = .ok l) (key : K) (val : V) :
    Outcome.Related (TwinAt cfg.maxSize) (leafInsert cfg h this key val)
      (leafInsert cfg' h' this key val) := by
  have hset (l' : Leaf K V) : Twin cfg.maxSize (h.write this (.leaf l'))
      (h'.write this (.leaf l')) :=
    ht.write (.refl _ _) this
  simp only [leafInsert, hl, hl', Outcome.ok_bind, hmax]
  refine .ite Iff.rfl ?_ (.ok ⟨hset _, rfl⟩)
  simp only [leafSplit, derefLeaf_eq (CellStore.read_write_self (derefLeaf_ok hl)),
    derefLeaf_eq (CellStore.read_write_self (derefLeaf_ok hl')), Outcome.ok_bind]
  refine .bind_same rfl fun halves => ?_
  cases halves with
  | none =>
    -- the new leaf is deleted, whatever its counter
    exact .ok ⟨(hset _).allocFree _ _, rfl⟩
  | some halves =>
    obtain ⟨left, right⟩ := halves
    simp only [CellStore.fresh_write, ht.fresh]
    exact .ok ⟨((hset _).alloc (.refl _ _)).write (.refl _ _) this, rfl⟩

omit ht in
/-- A leaf is split where there is nothing for the right half, or no node to cut behind. -/
theorem setChild_beyond {fuel this child : Nat} {l : Leaf K V} (hl : derefLeaf h child = .ok l)
    {key : K} {val : V} (hfull : cfg.maxSize < (l.mList.set key val).size)
    (hsplit : (l.mList.set key val).split = .fault .nullPointer ∨
      ∃ left size, (l.mList.set key val).split = .ok (some (left, ⟨[], size⟩))) :
    setChild cfg fuel h this child key val true = .fault .nullPointer := by
  have hcell := derefLeaf_ok hl
  simp only [setChild, leafInsert, hl, Outcome.ok_bind, if_pos hfull, leafSplit,
    derefLeaf_eq (CellStore.read_write_self hcell)]
  rcases hsplit with hfault | ⟨left, size, hempty⟩
  · simp only [hfault, Outcome.fault_bind]
  · have hne : (h.write child (.leaf { l with mList := l.mList.set key val })).fresh ≠ child := by
      rw [CellStore.fresh_write]
      exact (CellStore.lt_fresh_of_read hcell).ne'
    simp only [hempty, Outcome.ok_bind, insertLeaf, primaryKey, CellStore.read_write_of_ne hne,
      CellStore.read_alloc_self]
    rfl

omit ht in
theorem setChild_overfull {fuel this child room : Nat} {l : Leaf K V}
    (hl : derefLeaf h child = .ok l) (hover : Overfull cfg.maxSize room l.mList) (key : K)
    (val : V) :
    setChild cfg fuel h this child key val true = .fault .nullPointer := by
  obtain ⟨hfull, hsplit⟩ := hover.set_split key val
  exact setChild_beyond hl hfull hsplit

include hmax in
theorem setChild_leaf_twin (fuel this child : Nat) (key : K) (val : V) :
    Outcome.Related (Twin cfg.maxSize) (setChild cfg fuel h this child key val true)
      (setChild cfg' fuel h' this child key val true) := by
  have hleaf := derefLeaf_twin ht child
  generalize hl : derefLeaf h child = x at hleaf
  generalize hl' : derefLeaf h' child = x' at hleaf
  cases hleaf with
  | fault e =>
    simp only [setChild, leafInsert, hl, hl', Outcome.fault_bind]
    exact .fault e
  | outOfFuel =>
    simp only [setChild, leafInsert, hl, hl', Outcome.outOfFuel_bind]
    exact .outOfFuel
  | ok hleaf =>
    cases hleaf with
    | same l =>
      refine (leafInsert_same hmax ht hl hl' key val).bind ?_
      rintro ⟨h₁, q⟩ ⟨h₁', q'⟩ ⟨ht₁, rfl⟩
      cases q with
      | none => exact .ok ht₁
      | some newLeaf => exact insertLeaf_twin ht₁ fuel this newLeaf
    | overfull room mNext l l' hnodes hover hover' =>
      rw [setChild_overfull hl hover, setChild_overfull hl' (hmax ▸ hover')]
      exact .fault _

include hmax in
theorem internalSet_twin (fuel this : Nat) (key : K) (val : V) :
    Outcome.Related (TwinAt cfg.maxSize) (internalSet cfg fuel h this key val)
      (internalSet cfg' fuel h' this key val) := by
  induction fuel generalizing h h' this with
  | zero => exact .outOfFuel
  | succ fuel ih =>
    rw [internalSet_succ, internalSet_succ]
    refine .bind_same (getChildGe_twin ht fuel this key) fun child =>
      .bind_same (isLeaf_twin ht child) fun leaf => .bind (R := Twin cfg.maxSize) ?_
        fun h₁ h₁' ht₁ => setEnd_twin hmax ht₁ this
    cases leaf with
    | true => exact setChild_leaf_twin hmax ht fuel this child key val
    | false =>
      refine (ih ht child).bind ?_
      rintro ⟨h₁, q⟩ ⟨h₁', q'⟩ ⟨ht₁, rfl⟩
      cases q with
      | none => exact .ok ht₁
      | some newInternal => exact insertInternal_twin ht₁ fuel this newInternal

end Set

/-! ## `delete_key` -/

section Delete

variable [LinearOrder K] {cap : Nat} {h h' : Heap K V} (ht : Twin cap h h')

include ht

theorem deleteChildLoop_twin (fuel lN : Nat) (key : K) :
    Outcome.Related (Twin cap) (deleteChildLoop fuel h lN key)
      (deleteChildLoop fuel h' lN key) := by
  induction fuel generalizing h h' with
  | zero => exact .outOfFuel
  | succ fuel ih =>
    simp only [deleteChildLoop, derefListNode_twin ht]
    refine .bind_same rfl fun l => ?_
    cases l.mNext with
    | none => exact .ok ht
    | some next =>
      exact .bind_same rfl fun n => .ite Iff.rfl (ih ((ht.write (.listNode _) lN).free next))
        (ih ht)

theorem deleteChild_twin (fuel this : Nat) (key : K) :
    Outcome.Related (Twin cap) (deleteChild fuel h this key) (deleteChild fuel h' this key) := by
  simp only [deleteChild, derefInternal_twin ht, derefListNode_twin ht]
  exact .bind_same rfl fun n => .bind_same rfl fun lN => .bind_same rfl fun l =>
    .ite Iff.rfl (.ok ((ht.write (.internal _) this).free lN)) (deleteChildLoop_twin ht fuel lN key)

/-- `delete_key` of a leaf. -/
theorem leafDelete_twin (this : Nat) (key : K) :
    Outcome.Related (TwinAt cap)
      (do
        let l ← derefLeaf h this
        let r ← l.mList.deleteKey key
        .ok (h.write this (.leaf { l with mList := r.1 }), r.2))
      (do
        let l ← derefLeaf h' this
        let r ← l.mList.deleteKey key
        .ok (h'.write this (.leaf { l with mList := r.1 }), r.2)) := by
  refine (derefLeaf_twin ht this).bind fun l l' hl => ?_
  cases hl with
  | same => exact .bind_same rfl fun r => .ok ⟨ht.write (.refl _ _) this, rfl⟩
  | overfull room mNext l l' hnodes hover hover' =>
    refine (LeafList.deleteKey_twin hnodes hover hover' key).bind ?_
    rintro ⟨l₁, b⟩ ⟨l₁', b'⟩ ⟨hnodes₁, hover₁, hover₁', hb⟩
    exact .ok ⟨ht.write (.leaf _ _ (.overfull room mNext l₁ l₁' hnodes₁ hover₁ hover₁')) this, hb⟩

theorem baseDeleteKey_twin (fuel this : Nat) (key : K) :
    Outcome.Related (TwinAt cap) (baseDeleteKey fuel h this key)
      (baseDeleteKey fuel h' this key) := by
  induction fuel generalizing this with
  | zero => exact .outOfFuel
  | succ fuel ih =>
    simp only [baseDeleteKey]
    refine .bind_same (isLeaf_twin ht this) fun leaf =>
      .ite Iff.rfl (leafDelete_twin ht this key) ?_
    refine .bind_same (getChildGe_twin ht fuel this key) fun child => (ih child).bind ?_
    rintro ⟨h₁, b⟩ ⟨h₁', b'⟩ ⟨ht₁, hb⟩
    dsimp only at ht₁ hb ⊢
    subst hb
    refine .ite Iff.rfl ?_ (.ok ⟨ht₁, rfl⟩)
    refine (baseSize_twin ht₁ child).bind fun size size' hsize => .ite hsize ?_ (.ok ⟨ht₁, rfl⟩)
    refine .bind_same (derefInternal_twin ht₁ this) fun n => .ite Iff.rfl (.ok ⟨ht₁, rfl⟩) ?_
    exact (deleteChild_twin ht₁ fuel this key).bind fun h₂ h₂' ht₂ => .ok ⟨ht₂, rfl⟩

end Delete

/-! ## Trees -/

/-- A call on a tree. -/
inductive Access (K V : Type) where
  | set (key : K) (val : V)
  | get (key : K)
  | delete (key : K)
deriving DecidableEq, Repr

inductive Answer (V : Type) where
  | done
  | found (val : Option V)
  | deleted (b : Bool)
deriving DecidableEq, Repr

variable [LinearOrder K]

def Tree.access (cfg : Config) (fuel : Nat) (t : Tree K V) :
    Access K V → Outcome Fault (Tree K V × Answer V)
  | .set key val => do
      let t' ← t.set cfg fuel key val
      .ok (t', .done)
  | .get key => do
      let val ← t.get fuel key
      .ok (t, .found val)
  | .delete key => do
      let r ← t.deleteKey fuel key
      .ok (r.1, .deleted r.2)

/-- Call after call, with their results. -/
def Tree.accessAll (cfg : Config) (fuel : Nat) :
    List (Access K V) → Tree K V → Outcome Fault (Tree K V × List (Answer V))
  | [], t => .ok (t, [])
  | a :: as, t => do
      let r ← t.access cfg fuel a
      let rest ← Tree.accessAll cfg fuel as r.1
      .ok (rest.1, r.2 :: rest.2)

/-- The results of the calls on a new tree. -/
def answers (cfg : Config) (fuel : Nat) (as : List (Access K V)) :
    Outcome Fault (List (Answer V)) := do
  let r ← Tree.accessAll cfg fuel as ({} : Tree K V)
  .ok r.2

/-- The pairs that the calls put into a new tree. -/
def contents (cfg : Config) (fuel : Nat) (as : List (Access K V)) :
    Outcome Fault (List (K × V)) := do
  let r ← Tree.accessAll cfg fuel as ({} : Tree K V)
  r.1.iterate fuel

/-- The tree of one pair: its leaf `first`, and the lesser leaf next to it. -/
def firstTree (key : K) (first lesser : Leaf K V) : Tree K V :=
  ⟨⟨[some (.leaf first), some (.listNode ⟨key, 0, none⟩), some (.leaf lesser),
    some (.internal ⟨2, some 1, 1⟩)]⟩, some 3⟩

/-- The first `set` reads what the memory of these two leaves held. -/
theorem Tree.set_first (cfg : Config) (fuel : Nat) (key : K) (val : V) :
    Tree.set cfg fuel {} key val =
      .ok (firstTree key ⟨none, ⟨[(key, val)], sizeInc (cfg.staleSize 0)⟩⟩
        ⟨some 0, ⟨[], cfg.staleSize 2⟩⟩) := rfl

/-- Two trees that no call can tell apart. -/
inductive TwinTree (cfg cfg' : Config) : Tree K V → Tree K V → Prop
  | empty : TwinTree cfg cfg' {} {}
  | root (root : Nat) (h h' : Heap K V) : Twin cfg.maxSize h h' →
      Tree.Counts (fun _ => True) cfg ⟨h, some root⟩ →
      Tree.Counts (fun _ => True) cfg' ⟨h', some root⟩ →
      TwinTree cfg cfg' ⟨h, some root⟩ ⟨h', some root⟩

section Trees

variable {cfg cfg' : Config} (hcfg : cfg.Cuts) (horder : cfg'.order = cfg.order)
  (hfirst : ∀ (key : K) (val : V), TwinLeaf cfg.maxSize
    ⟨none, ⟨[(key, val)], sizeInc (cfg.staleSize 0)⟩⟩
    ⟨none, ⟨[(key, val)], sizeInc (cfg'.staleSize 0)⟩⟩)
  (hlesser : TwinLeaf cfg.maxSize (⟨some 0, ⟨[], cfg.staleSize 2⟩⟩ : Leaf K V)
    ⟨some 0, ⟨[], cfg'.staleSize 2⟩⟩)
  {t t' : Tree K V} (ht : TwinTree cfg cfg' t t')

include hcfg horder hfirst hlesser ht

theorem Tree.set_twin (fuel : Nat) (key : K) (val : V) :
    Outcome.Related (TwinTree cfg cfg') (t.set cfg fuel key val) (t'.set cfg' fuel key val) := by
  have hcfg' : cfg'.Cuts := ⟨horder ▸ hcfg.three_le, horder ▸ hcfg.lt_size⟩
  cases ht with
  | empty =>
    refine .ok (.root 3 _ _ ?_ ?_ ?_)
    · exact .cons (.some (.leaf _ _ (hfirst key val))) (.cons (.some (.listNode _))
        (.cons (.some (.leaf _ _ hlesser)) (.cons (.some (.internal _)) .nil)))
    · exact Tree.set_counts hcfg (leafInvariant_true cfg) (Tree.counts_empty _)
        (Tree.set_first cfg fuel key val)
    · exact Tree.set_counts hcfg' (leafInvariant_true cfg') (Tree.counts_empty _)
        (Tree.set_first cfg' fuel key val)
  | root root h h' htwin hk hk' =>
    have hmax : cfg'.maxSize = cfg.maxSize := by rw [Config.maxSize, horder, Config.maxSize]
    have hset : Outcome.Related
        (fun t t' : Tree K V => ∃ root, t.mRoot = some root ∧ t'.mRoot = some root ∧
          Twin cfg.maxSize t.heap t'.heap)
        (Tree.set cfg fuel ⟨h, some root⟩ key val)
        (Tree.set cfg' fuel ⟨h', some root⟩ key val) := by
      refine (internalSet_twin hmax htwin fuel root key val).bind ?_
      rintro ⟨h₁, q⟩ ⟨h₁', q'⟩ ⟨htwin₁, rfl⟩
      cases q with
      | none => exact .ok ⟨root, rfl, rfl, htwin₁⟩
      | some newRoot => exact .ok ⟨newRoot, rfl, rfl, htwin₁⟩
    refine hset.imp ?_
    rintro ⟨h₁, _⟩ ⟨h₁', _⟩ hrun hrun' ⟨root₁, rfl, rfl, htwin₁⟩
    exact .root root₁ h₁ h₁' htwin₁ (Tree.set_counts hcfg (leafInvariant_true cfg) hk hrun)
      (Tree.set_counts hcfg' (leafInvariant_true cfg') hk' hrun')

omit hcfg hfirst hlesser horder in
theorem Tree.get_twin (fuel : Nat) (key : K) : t.get fuel key = t'.get fuel key := by
  cases ht with
  | empty => rfl
  | root root h h' htwin hk hk' => exact getValPtr_twin htwin fuel root key

omit [LinearOrder K] hcfg hfirst hlesser horder in
theorem Tree.iterate_twin (fuel : Nat) : t.iterate fuel = t'.iterate fuel := by
  cases ht with
  | empty => rfl
  | root root h h' htwin hk hk' => exact baseIterate_twin htwin fuel root

omit hcfg hfirst hlesser horder in
theorem Tree.deleteKey_twin (fuel : Nat) (key : K) :
    Outcome.Related (fun r r' => TwinTree cfg cfg' r.1 r'.1 ∧ r.2 = r'.2) (t.deleteKey fuel key)
      (t'.deleteKey fuel key) := by
  cases ht with
  | empty => exact .ok ⟨.empty, rfl⟩
  | root root h h' htwin hk hk' =>
    have hdelete : Outcome.Related
        (fun r r' : Tree K V × Bool => r.1.mRoot = some root ∧ r'.1.mRoot = some root ∧
          Twin cfg.maxSize r.1.heap r'.1.heap ∧ r.2 = r'.2)
        (Tree.deleteKey fuel ⟨h, some root⟩ key) (Tree.deleteKey fuel ⟨h', some root⟩ key) := by
      rw [hk.deleteKey_eq rfl, hk'.deleteKey_eq rfl]
      refine (baseDeleteKey_twin htwin fuel root key).bind ?_
      rintro ⟨h₁, b⟩ ⟨h₁', b'⟩ ⟨htwin₁, hb⟩
      exact .ok ⟨rfl, rfl, htwin₁, hb⟩
    refine hdelete.imp ?_
    rintro ⟨⟨h₁, _⟩, b⟩ ⟨⟨h₁', _⟩, b'⟩ hrun hrun' ⟨rfl, rfl, htwin₁, hb⟩
    exact ⟨.root root h₁ h₁' htwin₁ (Tree.deleteKey_counts (leafInvariant_true cfg) hk hrun)
      (Tree.deleteKey_counts (leafInvariant_true cfg') hk' hrun'), hb⟩

theorem Tree.access_twin (fuel : Nat) (a : Access K V) :
    Outcome.Related (fun r r' => TwinTree cfg cfg' r.1 r'.1 ∧ r.2 = r'.2) (t.access cfg fuel a)
      (t'.access cfg' fuel a) := by
  cases a with
  | set key val =>
    exact (Tree.set_twin hcfg horder hfirst hlesser ht fuel key val).bind
      fun t₁ t₁' ht₁ => .ok ⟨ht₁, rfl⟩
  | get key =>
    exact .bind_same (Tree.get_twin ht fuel key) fun val => .ok ⟨ht, rfl⟩
  | delete key =>
    exact (Tree.deleteKey_twin ht fuel key).bind
      fun r r' hr => .ok ⟨hr.1, congrArg Answer.deleted hr.2⟩

theorem Tree.accessAll_twin (fuel : Nat) (as : List (Access K V)) :
    Outcome.Related (fun r r' => TwinTree cfg cfg' r.1 r'.1 ∧ r.2 = r'.2)
      (Tree.accessAll cfg fuel as t) (Tree.accessAll cfg' fuel as t') := by
  induction as generalizing t t' with
  | nil => exact .ok ⟨ht, rfl⟩
  | cons a as ih =>
    refine (Tree.access_twin hcfg horder hfirst hlesser ht fuel a).bind ?_
    rintro ⟨t₁, b⟩ ⟨t₁', b'⟩ ⟨ht₁, rfl⟩
    refine (ih ht₁).bind ?_
    rintro ⟨t₂, bs⟩ ⟨t₂', bs'⟩ ⟨ht₂, rfl⟩
    exact .ok ⟨ht₂, rfl⟩

end Trees

/-! ## Two choices of what the memory held -/

/-- The same, or both so large that the leaf is `Overfull` as long as it holds fewer than `room`
pairs. -/
def SameCounter (cap room x y : Nat) : Prop :=
  x = y ∨ (cap ≤ x ∧ x + room < sizeMod) ∧ cap ≤ y ∧ y + room < sizeMod

/-- A tree of this order, with what the memory of each leaf held. -/
def Order.configIn (o : Order) (stale : Nat → UInt64) : Config := ⟨o.val, fun a => (stale a).toNat⟩

/-- The leaf of the first pair, and the lesser leaf next to it. -/
structure MemoryAgrees (o : Order) (stale stale' : Nat → UInt64) : Prop where
  first : SameCounter (o.val - 1) 2 (stale 0).toNat (stale' 0).toNat
  lesser : SameCounter (o.val - 1) 1 (stale 2).toNat (stale' 2).toNat

omit [LinearOrder K] in
theorem twinLeaf_first {cap x y : Nat} (htwo : 2 ≤ cap) (h : SameCounter cap 2 x y) (pair : K × V) :
    TwinLeaf cap ⟨none, ⟨[pair], sizeInc x⟩⟩ ⟨none, ⟨[pair], sizeInc y⟩⟩ := by
  have hover {x : Nat} (hcap : cap ≤ x) (hlt : x + 2 < sizeMod) :
      Overfull cap 2 (⟨[pair], sizeInc x⟩ : LeafList K V) :=
    ⟨htwo, le_refl 2, Nat.lt_succ_self 1, x, hcap, hlt, sizeInc_of_lt (by omega)⟩
  rcases h with rfl | ⟨⟨hx, hx'⟩, hy, hy'⟩
  · exact .same _
  · exact .overfull 2 none _ _ rfl (hover hx hx') (hover hy hy')

omit [LinearOrder K] in
theorem twinLeaf_lesser {cap x y : Nat} (htwo : 2 ≤ cap) (h : SameCounter cap 1 x y)
    (next : Option Nat) : TwinLeaf cap (⟨next, ⟨[], x⟩⟩ : Leaf K V) ⟨next, ⟨[], y⟩⟩ := by
  have hover {x : Nat} (hcap : cap ≤ x) (hlt : x + 1 < sizeMod) :
      Overfull cap 1 (⟨[], x⟩ : LeafList K V) :=
    ⟨htwo, Nat.le_succ 1, Nat.zero_lt_one, x, hcap, hlt, rfl⟩
  rcases h with rfl | ⟨⟨hx, hx'⟩, hy, hy'⟩
  · exact .same _
  · exact .overfull 1 next _ _ rfl (hover hx hx') (hover hy hy')

/-- With the same fuel the two runs end alike, with the same results. -/
theorem MemoryAgrees.accessAll {o : Order} {stale stale' : Nat → UInt64}
    (h : MemoryAgrees o stale stale') (fuel : Nat) (as : List (Access K V)) :
    Outcome.Related
      (fun r r' => TwinTree (o.configIn stale) (o.configIn stale') r.1 r'.1 ∧ r.2 = r'.2)
      (Tree.accessAll (o.configIn stale) fuel as {})
      (Tree.accessAll (o.configIn stale') fuel as {}) := by
  have h3 := o.three_le
  have htwo : 2 ≤ o.val - 1 := by omega
  have hcuts : (o.configIn stale).Cuts := ⟨o.three_le, o.lt_size⟩
  exact @Tree.accessAll_twin K V _ _ (o.configIn stale') hcuts rfl
    (fun key val => twinLeaf_first htwo h.first (key, val))
    (twinLeaf_lesser htwo h.lesser (some 0)) _ _ .empty fuel as

theorem MemoryAgrees.answers_eq {o : Order} {stale stale' : Nat → UInt64}
    (h : MemoryAgrees o stale stale') (fuel : Nat) (as : List (Access K V)) :
    answers (o.configIn stale) fuel as = answers (o.configIn stale') fuel as :=
  ((h.accessAll fuel as).bind fun _ _ hr => .of_eq (congrArg Outcome.ok hr.2)).eq

theorem MemoryAgrees.contents_eq {o : Order} {stale stale' : Nat → UInt64}
    (h : MemoryAgrees o stale stale') (fuel : Nat) (as : List (Access K V)) :
    contents (o.configIn stale) fuel as = contents (o.configIn stale') fuel as :=
  ((h.accessAll fuel as).bind fun _ _ hr => .of_eq (Tree.iterate_twin hr.1 fuel)).eq

/-- For every sequence of calls the two runs return the same results and build the same contents. -/
structure SameRuns (K V : Type) [LinearOrder K] (o : Order) (stale stale' : Nat → UInt64) :
    Prop where
  answers : ∀ (as : List (Access K V)) (rs : List (Answer V)),
    Returns (fun fuel => answers (o.configIn stale) fuel as) rs ↔
      Returns (fun fuel => answers (o.configIn stale') fuel as) rs
  contents : ∀ (as : List (Access K V)) (entries : List (K × V)),
    Returns (fun fuel => contents (o.configIn stale) fuel as) entries ↔
      Returns (fun fuel => contents (o.configIn stale') fuel as) entries

theorem MemoryAgrees.sameRuns {o : Order} {stale stale' : Nat → UInt64}
    (h : MemoryAgrees o stale stale') : SameRuns K V o stale stale' where
  answers as rs := by simp only [h.answers_eq]
  contents as entries := by simp only [h.contents_eq]

end StateDb.Bpt
