/-
  StateDb/BptCapacity.lean
  ========================
  **How full the nodes are, and what hangs under a separator** (`leaf.h`, `bpt_internal.h`).

  No pointer but one leads from the nodes to a leaf: it is the child of one list node or the
  `m_lesser` of internal nodes (`Hung`).  A `set` therefore comes to the leaf under a separator
  only with keys that are not below it, and a `split` hands a leaf over as a whole.  After every
  run of `set` calls no cell is too full or too empty (`set_run_within`).
-/
import StateDb.BptCells

namespace StateDb.Bpt

open Lib Lib.SortedAssoc

variable {K V : Type} [LinearOrder K] {cfg : Config} {h h' : Heap K V}

/-- The leaf is not empty, and none of its keys is below `key`. -/
def Leaf.Above (l : Leaf K V) (key : K) : Prop :=
  l.mList.nodes ≠ [] ∧ ∀ q ∈ l.mList.nodes, key ≤ q.1

theorem Leaf.above_of_getRootKey {l : Leaf K V} (hsorted : Sorted l.mList.nodes) {key : K}
    (hkey : l.mList.getRootKey = .ok key) : l.Above key := by
  unfold LeafList.getRootKey at hkey
  split at hkey
  · cases hkey
  · rename_i root rest hnodes
    obtain rfl := Outcome.ok.inj hkey
    rw [hnodes] at hsorted
    rw [Leaf.Above, hnodes]
    refine ⟨by simp, fun q hq => ?_⟩
    rcases List.mem_cons.mp hq with rfl | hq
    · exact le_refl _
    · exact ((sorted_cons.mp hsorted).1 q hq).le

/-! ## How leaves hang in the nodes -/

structure Hung (h : Heap K V) : Prop where
  child_lt : ∀ {a : Nat} {n : ListNode K}, h.read a = some (.listNode n) → n.val < h.fresh
  lesser_lt : ∀ {a : Nat} {n : Internal}, h.read a = some (.internal n) → n.mLesser < h.fresh
  once : ∀ {a b : Nat} {m n : ListNode K} {l : Leaf K V}, h.read a = some (.listNode m) →
    h.read b = some (.listNode n) → n.val = m.val → h.read m.val = some (.leaf l) → a = b
  apart : ∀ {a b : Nat} {m : ListNode K} {n : Internal} {l : Leaf K V},
    h.read a = some (.listNode m) → h.read b = some (.internal n) → n.mLesser = m.val →
    h.read m.val ≠ some (.leaf l)
  above : ∀ {a : Nat} {n : ListNode K} {l : Leaf K V}, h.read a = some (.listNode n) →
    h.read n.val = some (.leaf l) → l.Above n.key

/-- What the cell hangs in `h'` it hung in `h`, or it is no leaf that hangs elsewhere. -/
def HangsAs (h h' : Heap K V) (a : Nat) : Cell K V → Prop
  | .leaf l => h.read a = some (.leaf l)
  | .listNode n => n.val < h'.fresh ∧
      ((∃ m : ListNode K, h.read a = some (.listNode m) ∧ m.key = n.key ∧ m.val = n.val) ∨
        ∀ l, h'.read n.val ≠ some (.leaf l))
  | .internal n => n.mLesser < h'.fresh ∧
      ((∃ b, ∃ m : Internal, h.read b = some (.internal m) ∧ m.mLesser = n.mLesser) ∨
        ∀ (b : Nat) (m : ListNode K) (l : Leaf K V), h'.read b = some (.listNode m) →
          m.val = n.mLesser → h'.read m.val ≠ some (.leaf l))

namespace Hung

/-- The cells hang what they hung, when none is changed. -/
theorem every (hh : Hung h) (hle : h.fresh ≤ h'.fresh) : h.Every (HangsAs h h') := by
  intro a c hc
  cases c with
  | leaf l => exact hc
  | listNode n => exact ⟨(hh.child_lt hc).trans_le hle, Or.inl ⟨n, hc, rfl, rfl⟩⟩
  | internal n => exact ⟨(hh.lesser_lt hc).trans_le hle, Or.inl ⟨a, n, hc, rfl⟩⟩

theorem of_every (hh : Hung h) (hall : h'.Every (HangsAs h h')) : Hung h' := by
  have hnode {a : Nat} {n : ListNode K} {l : Leaf K V} (hn : h'.read a = some (.listNode n))
      (hl : h'.read n.val = some (.leaf l)) :
      ∃ m : ListNode K, h.read a = some (.listNode m) ∧ m.key = n.key ∧ m.val = n.val :=
    (hall a _ hn).2.resolve_right fun hno => hno l hl
  have hleaf {p : Nat} {l : Leaf K V} (hl : h'.read p = some (.leaf l)) :
      h.read p = some (.leaf l) :=
    hall p _ hl
  constructor
  · exact fun hn => (hall _ _ hn).1
  · exact fun hn => (hall _ _ hn).1
  · intro a b m n l hm hn heq hl
    obtain ⟨m', hm', -, hval⟩ := hnode hm hl
    obtain ⟨n', hn', -, hval'⟩ := hnode hn (by rw [heq]; exact hl)
    exact hh.once hm' hn' (hval'.trans (heq.trans hval.symm)) (by rw [hval]; exact hleaf hl)
  · intro a b m n l hm hn heq hl
    obtain ⟨m', hm', -, hval⟩ := hnode hm hl
    rcases (hall b _ hn).2 with ⟨b', n', hn', heq'⟩ | hno
    · exact hh.apart hm' hn' (heq'.trans (heq.trans hval.symm)) (by rw [hval]; exact hleaf hl)
    · exact hno a m l hm heq.symm hl
  · intro a n l hn hl
    obtain ⟨n', hn', hkey, hval⟩ := hnode hn hl
    exact hkey ▸ hh.above hn' (by rw [hval]; exact hleaf hl)

theorem writeNode (hh : Hung h) {a : Nat} {n : ListNode K} (hn : h.read a = some (.listNode n))
    (next : Option Nat) : Hung (h.write a (.listNode { n with mNext := next })) := by
  refine hh.of_every ((hh.every (by simp)).write (fun _ _ _ hc => hc)
    ⟨?_, Or.inl ⟨n, hn, rfl, rfl⟩⟩)
  have hlt := hh.child_lt hn
  rwa [CellStore.fresh_write]

theorem writeInternal (hh : Hung h) {a : Nat} {n : Internal} (hn : h.read a = some (.internal n))
    (root : Option Nat) (size : Nat) :
    Hung (h.write a (.internal { n with mRoot := root, mSize := size })) := by
  refine hh.of_every ((hh.every (by simp)).write (fun _ _ _ hc => hc) ⟨?_, Or.inl ⟨a, n, hn, rfl⟩⟩)
  have hlt := hh.lesser_lt hn
  rwa [CellStore.fresh_write]

/-- A new leaf hangs nowhere. -/
theorem allocLeaf (hh : Hung h) (l : Leaf K V) : Hung (h.alloc (.leaf l)) := by
  have hnode {a : Nat} {n : ListNode K} (hn : (h.alloc (.leaf l)).read a = some (.listNode n)) :
      h.read a = some (.listNode n) ∧ (h.alloc (.leaf l)).read n.val = h.read n.val := by
    have hn := (CellStore.read_alloc_cases hn).resolve_left fun heq => by cases heq.2
    exact ⟨hn, CellStore.read_alloc_of_lt (hh.child_lt hn)⟩
  have hinternal {a : Nat} {n : Internal} (hn : (h.alloc (.leaf l)).read a = some (.internal n)) :
      h.read a = some (.internal n) :=
    (CellStore.read_alloc_cases hn).resolve_left fun heq => by cases heq.2
  constructor
  · intro a n hn
    rw [CellStore.fresh_alloc]
    exact (hh.child_lt (hnode hn).1).trans (Nat.lt_succ_self _)
  · intro a n hn
    rw [CellStore.fresh_alloc]
    exact (hh.lesser_lt (hinternal hn)).trans (Nat.lt_succ_self _)
  · intro a b m n l' hm hn heq hl
    rw [(hnode hm).2] at hl
    exact hh.once (hnode hm).1 (hnode hn).1 heq hl
  · intro a b m n l' hm hn heq hl
    rw [(hnode hm).2] at hl
    exact hh.apart (hnode hm).1 (hinternal hn) heq hl
  · intro a n l' hn hl
    rw [(hnode hn).2] at hl
    exact hh.above (hnode hn).1 hl

/-- A leaf is changed, and is above its separator still. -/
theorem writeLeaf (hh : Hung h) {this : Nat} {l l' : Leaf K V} (hl : h.read this = some (.leaf l))
    (habove : ∀ a (n : ListNode K), h.read a = some (.listNode n) → n.val = this → l'.Above n.key) :
    Hung (h.write this (.leaf l')) := by
  have hnode {a : Nat} {n : ListNode K}
      (hn : (h.write this (.leaf l')).read a = some (.listNode n)) :
      h.read a = some (.listNode n) :=
    ((CellStore.read_write_cases hn).resolve_left fun heq => by cases heq.2).2
  have hinternal {a : Nat} {n : Internal}
      (hn : (h.write this (.leaf l')).read a = some (.internal n)) :
      h.read a = some (.internal n) :=
    ((CellStore.read_write_cases hn).resolve_left fun heq => by cases heq.2).2
  have hleaf {p : Nat} {l₁ : Leaf K V} (hl₁ : (h.write this (.leaf l')).read p = some (.leaf l₁)) :
      ∃ l₂, h.read p = some (.leaf l₂) := by
    rcases CellStore.read_write_cases hl₁ with ⟨rfl, -⟩ | ⟨-, hl₁⟩
    · exact ⟨l, hl⟩
    · exact ⟨l₁, hl₁⟩
  constructor
  · intro a n hn
    rw [CellStore.fresh_write]
    exact hh.child_lt (hnode hn)
  · intro a n hn
    rw [CellStore.fresh_write]
    exact hh.lesser_lt (hinternal hn)
  · intro a b m n l₁ hm hn heq hl₁
    obtain ⟨l₂, hl₂⟩ := hleaf hl₁
    exact hh.once (hnode hm) (hnode hn) heq hl₂
  · intro a b m n l₁ hm hn heq hl₁
    obtain ⟨l₂, hl₂⟩ := hleaf hl₁
    exact hh.apart (hnode hm) (hinternal hn) heq hl₂
  · intro a n l₁ hn hl₁
    rcases CellStore.read_write_cases hl₁ with ⟨hthis, heq⟩ | ⟨-, hl₁⟩
    · cases heq
      exact habove a n (hnode hn) hthis
    · exact hh.above (hnode hn) hl₁

end Hung

/-- `child` can come under a separator `key`: if it is a leaf, it is above it and hangs nowhere. -/
def Ready (h : Heap K V) (key : K) (child : Nat) : Prop :=
  child < h.fresh ∧ ∀ l, h.read child = some (.leaf l) → l.Above key ∧
    (∀ a (n : ListNode K), h.read a = some (.listNode n) → n.val ≠ child) ∧
    ∀ a (n : Internal), h.read a = some (.internal n) → n.mLesser ≠ child

theorem Ready.of_internal {child : Nat} {n : Internal} (hn : h.read child = some (.internal n))
    (key : K) : Ready h key child := by
  refine ⟨CellStore.lt_fresh_of_read hn, fun l hl => ?_⟩
  rw [hn] at hl
  cases hl

/-- A new leaf can come under its first key. -/
theorem Hung.ready_new (hh : Hung h) {l : Leaf K V} (hsorted : Sorted l.mList.nodes) {key : K}
    (hkey : primaryKey (h.alloc (.leaf l)) h.fresh = .ok key) :
    Ready (h.alloc (.leaf l)) key h.fresh := by
  refine ⟨by simp, fun l' hl' => ?_⟩
  obtain rfl : l = l' := by simpa using hl'
  refine ⟨?_, ?_, ?_⟩
  · simp only [primaryKey, CellStore.read_alloc_self] at hkey
    exact Leaf.above_of_getRootKey hsorted hkey
  · intro a n hn
    have hn := (CellStore.read_alloc_cases hn).resolve_left fun heq => by cases heq.2
    exact (hh.child_lt hn).ne
  · intro a n hn
    have hn := (CellStore.read_alloc_cases hn).resolve_left fun heq => by cases heq.2
    exact (hh.lesser_lt hn).ne

theorem Hung.allocNode (hh : Hung h) {key : K} {child : Nat} (hready : Ready h key child)
    (next : Option Nat) : Hung (h.alloc (.listNode ⟨key, child, next⟩)) := by
  obtain ⟨hlt, hready⟩ := hready
  have hinternal {a : Nat} {n : Internal}
      (hn : (h.alloc (.listNode ⟨key, child, next⟩)).read a = some (.internal n)) :
      h.read a = some (.internal n) :=
    (CellStore.read_alloc_cases hn).resolve_left fun heq => by cases heq.2
  have hleaf {p : Nat} {l : Leaf K V}
      (hl : (h.alloc (.listNode ⟨key, child, next⟩)).read p = some (.leaf l)) :
      h.read p = some (.leaf l) :=
    (CellStore.read_alloc_cases hl).resolve_left fun heq => by cases heq.2
  constructor
  · intro a n hn
    rw [CellStore.fresh_alloc]
    rcases CellStore.read_alloc_cases hn with ⟨-, heq⟩ | hn
    · cases heq
      exact hlt.trans (Nat.lt_succ_self _)
    · exact (hh.child_lt hn).trans (Nat.lt_succ_self _)
  · intro a n hn
    rw [CellStore.fresh_alloc]
    exact (hh.lesser_lt (hinternal hn)).trans (Nat.lt_succ_self _)
  · intro a b m n l hm hn heq hl
    have hl := hleaf hl
    rcases CellStore.read_alloc_cases hm with ⟨ha, hm⟩ | hm <;>
      rcases CellStore.read_alloc_cases hn with ⟨hb, hn⟩ | hn
    · exact ha.trans hb.symm
    · cases hm
      exact absurd heq ((hready l hl).2.1 b n hn)
    · cases hn
      rw [← heq] at hl
      exact absurd heq.symm ((hready l hl).2.1 a m hm)
    · exact hh.once hm hn heq hl
  · intro a b m n l hm hn heq hl
    have hl := hleaf hl
    rcases CellStore.read_alloc_cases hm with ⟨-, hm⟩ | hm
    · cases hm
      exact (hready l hl).2.2 b n (hinternal hn) heq
    · exact hh.apart hm (hinternal hn) heq hl
  · intro a n l hn hl
    have hl := hleaf hl
    rcases CellStore.read_alloc_cases hn with ⟨-, hn⟩ | hn
    · cases hn
      exact (hready l hl).1
    · exact hh.above hn hl

/-! ## The way to a leaf -/

theorem getChildLnGe_le {fuel node : Nat} {key : K} {r : Nat} {n : ListNode K}
    (hrun : getChildLnGe fuel h node key = .ok r) (hn : h.read node = some (.listNode n))
    (hle : n.key ≤ key) : ∃ m : ListNode K, h.read r = some (.listNode m) ∧ m.key ≤ key := by
  induction fuel generalizing node n with
  | zero => cases hrun
  | succ fuel ih =>
    simp only [getChildLnGe, derefListNode_eq hn, Outcome.ok_bind] at hrun
    split at hrun
    · obtain rfl := Outcome.ok.inj hrun
      exact ⟨n, hn, hle⟩
    · obtain ⟨m, hm, hrun⟩ := Outcome.bind_eq_ok.mp hrun
      split at hrun
      · obtain rfl := Outcome.ok.inj hrun
        exact ⟨n, hn, hle⟩
      · rename_i hge
        exact ih hrun (derefListNode_ok hm) (not_lt.mp hge)

/-- A key comes to a leaf under a separator only if it is not below it. -/
theorem Hung.le_of_getChildGe (hh : Hung h) {fuel this child : Nat} {key : K} {l : Leaf K V}
    (hrun : getChildGe fuel h this key = .ok child) (hl : h.read child = some (.leaf l)) {a : Nat}
    {n : ListNode K} (hn : h.read a = some (.listNode n)) (hval : n.val = child) : n.key ≤ key := by
  subst hval
  obtain ⟨i, hi, hrun⟩ := Outcome.bind_eq_ok.mp hrun
  obtain ⟨root, -, hrun⟩ := Outcome.bind_eq_ok.mp hrun
  obtain ⟨r, hr, hrun⟩ := Outcome.bind_eq_ok.mp hrun
  split at hrun
  · exact absurd hl (hh.apart hn (derefInternal_ok hi) (Outcome.ok.inj hrun))
  · rename_i hge
    obtain ⟨node, hnode, hrun⟩ := Outcome.bind_eq_ok.mp hrun
    obtain ⟨c, hc, hrun⟩ := Outcome.bind_eq_ok.mp hrun
    obtain ⟨m, hm, hle⟩ := getChildLnGe_le hnode (derefListNode_ok hr) (not_lt.mp hge)
    obtain rfl : a = node := hh.once hn (derefListNode_ok hc) (Outcome.ok.inj hrun) hl
    rw [hn] at hm
    cases hm
    exact hle

/-! ## `set` -/

/-- The right half of a leaf that is cut can come under a separator. -/
theorem Hung.ready_half (hh : Hung h) {this : Nat} {l : Leaf K V} (left right : Leaf K V)
    (hl : h.read this = some (.leaf l))
    (happ : l.mList.nodes = left.mList.nodes ++ right.mList.nodes) (hsorted : Sorted l.mList.nodes)
    (hleft : left.mList.nodes ≠ []) :
    Hung ((h.alloc (.leaf right)).write this (.leaf left)) ∧
      ∀ k, primaryKey ((h.alloc (.leaf right)).write this (.leaf left)) h.fresh = .ok k →
        Ready ((h.alloc (.leaf right)).write this (.leaf left)) k h.fresh := by
  obtain ⟨hthis, hfresh⟩ := read_cutLeaf hl left right
  have hcell : (h.alloc (.leaf right)).read this = some (.leaf l) := by
    rw [CellStore.read_alloc_of_lt (CellStore.lt_fresh_of_read hl), hl]
  have hbefore {a : Nat} {c : Cell K V} (hc : ∀ l, c ≠ .leaf l)
      (hread : ((h.alloc (.leaf right)).write this (.leaf left)).read a = some c) :
      h.read a = some c := by
    have hread := ((CellStore.read_write_cases hread).resolve_left fun heq => hc _ heq.2).2
    exact (CellStore.read_alloc_cases hread).resolve_left fun heq => hc _ heq.2
  refine ⟨(hh.allocLeaf right).writeLeaf hcell fun a n hn hval => ?_,
    fun k hk => ⟨?_, fun l' hl' => ?_⟩⟩
  · have hn := (CellStore.read_alloc_cases hn).resolve_left fun heq => by cases heq.2
    have habove := (hh.above hn (by rw [hval]; exact hl)).2
    exact ⟨hleft, fun q hq => habove q (happ ▸ List.mem_append_left _ hq)⟩
  · rw [CellStore.fresh_write, CellStore.fresh_alloc]
    exact Nat.lt_succ_self _
  · obtain rfl : right = l' := by simpa [hfresh] using hl'
    refine ⟨?_, ?_, ?_⟩
    · simp only [primaryKey, hfresh] at hk
      exact Leaf.above_of_getRootKey (sorted_append.mp (happ ▸ hsorted)).2.1 hk
    · exact fun a n hn => (hh.child_lt (hbefore (by simp) hn)).ne
    · exact fun a n hn => (hh.lesser_lt (hbefore (by simp) hn)).ne

section Set

variable (hcfg : cfg.Admissible)

include hcfg

/-- The right half of a leaf that is cut can come under a separator. -/
theorem leafInsert_hung (hk : HeapKept cfg none h) (hh : Hung h) {this : Nat} {key : K} {val : V}
    (habove : ∀ a (n : ListNode K), h.read a = some (.listNode n) → n.val = this → n.key ≤ key)
    {r : Heap K V × Option Nat} (hrun : leafInsert cfg h this key val = .ok r) :
    Hung r.1 ∧ ∀ q k, r.2 = some q → primaryKey r.1 q = .ok k → Ready r.1 k q := by
  have h3 := hcfg.three_le
  have hmax : cfg.maxSize = cfg.order - 1 := rfl
  have hlt := hcfg.lt_size
  obtain ⟨l, hl, hrun⟩ := Outcome.bind_eq_ok.mp hrun
  have hcell := derefLeaf_ok hl
  have hset : (l.mList.set key val).Kept (cfg.maxSize + 1) :=
    LeafList.Kept.set (hk this _ hcell) key val (by omega)
  have hnodes := LeafList.set_nodes l.mList key val (hk this _ hcell).sorted
  -- the pair is not below the separator of the leaf
  have hset_above : ∀ a (n : ListNode K), h.read a = some (.listNode n) → n.val = this →
      ∀ q ∈ (l.mList.set key val).nodes, n.key ≤ q.1 := by
    intro a n hn hval q hq
    rw [hnodes] at hq
    rcases key_of_mem_upsert hq with hkey | hq
    · rw [hkey]
      exact habove a n hn hval
    · exact (hh.above hn (by rw [hval]; exact hcell)).2 q hq
  have hne : (l.mList.set key val).nodes ≠ [] := by
    rw [hnodes]
    exact upsert_ne_nil key val l.mList.nodes
  have hh₁ : Hung (h.write this (.leaf { l with mList := l.mList.set key val })) :=
    hh.writeLeaf hcell fun a n hn hval => ⟨hne, hset_above a n hn hval⟩
  have hcell₁ : (h.write this (.leaf { l with mList := l.mList.set key val })).read this =
      some (.leaf { l with mList := l.mList.set key val }) := CellStore.read_write_self hcell
  dsimp only at hrun
  have hsize : (l.mList.set key val).size = (l.mList.set key val).nodes.length := hset.sized
  split at hrun
  · rename_i hfull
    obtain ⟨left, right, happ, hleft, -, -, hsplit⟩ := LeafList.split_eq hset.sized (by omega)
    simp only [leafSplit, derefLeaf_eq hcell₁, Outcome.ok_bind, hsplit] at hrun
    obtain rfl := Outcome.ok.inj hrun
    obtain ⟨hh₂, hready⟩ := hh₁.ready_half ⟨some _, ⟨left, left.length⟩⟩
      ⟨l.mNext, ⟨right, right.length⟩⟩ hcell₁ happ hset.sorted hleft
    refine ⟨hh₂, ?_⟩
    rintro q k ⟨⟩ hk
    exact hready k hk
  · obtain rfl := Outcome.ok.inj hrun
    exact ⟨hh₁, fun q k hq => by cases hq⟩

omit hcfg

theorem insertNode_hung (hh : Hung h) {fuel this first after : Nat} {key : K}
    (hfirst : Ready h key first) (hafter : Ready h key after)
    (hrun : insertNode fuel h this key first after = .ok h') : Hung h' := by
  obtain ⟨n, hn, hrun⟩ := Outcome.bind_eq_ok.mp hrun
  obtain ⟨root, -, hrun⟩ := Outcome.bind_eq_ok.mp hrun
  obtain ⟨r, -, hrun⟩ := Outcome.bind_eq_ok.mp hrun
  have hn := derefInternal_ok hn
  have hthis := CellStore.lt_fresh_of_read hn
  split at hrun
  · obtain rfl := Outcome.ok.inj hrun
    exact (hh.allocNode hfirst (some root)).writeInternal
      (by rw [CellStore.read_alloc_of_lt hthis, hn]) _ _
  · obtain ⟨node, -, hrun⟩ := Outcome.bind_eq_ok.mp hrun
    obtain ⟨m, hm, hrun⟩ := Outcome.bind_eq_ok.mp hrun
    obtain rfl := Outcome.ok.inj hrun
    have hm := derefListNode_ok hm
    have hm₁ : (h.alloc (.listNode ⟨key, after, m.mNext⟩)).read node = some (.listNode m) := by
      rw [CellStore.read_alloc_of_lt (CellStore.lt_fresh_of_read hm), hm]
    have hne : this ≠ node := by
      rintro rfl
      rw [hn] at hm
      cases hm
    have hn₁ : ((h.alloc (.listNode ⟨key, after, m.mNext⟩)).write node
        (.listNode { m with mNext := some h.fresh })).read this = some (.internal n) := by
      rw [CellStore.read_write_of_ne hne, CellStore.read_alloc_of_lt hthis, hn]
    exact ((hh.allocNode hafter m.mNext).writeNode hm₁ _).writeInternal hn₁ n.mRoot _

theorem insertLeaf_hung (hh : Hung h) {fuel this l : Nat}
    (hready : ∀ k, primaryKey h l = .ok k → Ready h k l)
    (hrun : insertLeaf fuel h this l = .ok h') : Hung h' := by
  obtain ⟨key, hkey, hrun⟩ := Outcome.bind_eq_ok.mp hrun
  exact insertNode_hung hh (hready key hkey) (hready key hkey) hrun

/-- `r` is an internal node, and so is the child at the right of its first separator. -/
def IsGraft (h : Heap K V) (r : Nat) : Prop :=
  ∃ (n i : Internal) (node : ListNode K) (root : Nat), h.read r = some (.internal n) ∧
    n.mRoot = some root ∧ h.read root = some (.listNode node) ∧ h.read node.val = some (.internal i)

theorem insertInternal_hung (hh : Hung h) {fuel this iN : Nat} (hgraft : IsGraft h iN)
    (hrun : insertInternal fuel h this iN = .ok h') : Hung h' := by
  obtain ⟨n, i, node, root, hn, hroot, hnode, hi⟩ := hgraft
  obtain ⟨key, -, hrun⟩ := Outcome.bind_eq_ok.mp hrun
  simp only [derefInternal_eq hn, hroot, nonNull, derefListNode_eq hnode, Outcome.ok_bind] at hrun
  exact insertNode_hung hh (.of_internal hn key) (.of_internal hi key) hrun

/-- `split` hands the child of the middle node over to the new node, as its `m_lesser`. -/
theorem internalSplit_hung (hh : Hung h) {this : Nat} {r : Heap K V × Nat}
    (hrun : internalSplit h this = .ok r) : Hung r.1 ∧ IsGraft r.1 r.2 := by
  obtain ⟨n, middleNode, m, hn, hm, hroot, heq⟩ := exists_of_internalSplit hrun
  have hthis := CellStore.lt_fresh_of_read hn
  have hmiddle := CellStore.lt_fresh_of_read hm
  have hne : middleNode ≠ this := by
    rintro rfl
    rw [hn] at hm
    cases hm
  have hval := hh.child_lt hm
  have hlesser := hh.lesser_lt hn
  rw [hroot]
  have hfresh : r.1.fresh = h.fresh + 2 := by
    rw [heq, CellStore.fresh_write, CellStore.fresh_write, CellStore.fresh_alloc,
      CellStore.fresh_alloc]
  -- the cells of the two new nodes, of the old one and of the middle list node
  have hleft : r.1.read this = some (.internal { n with mSize := n.mSize / 2 }) := by
    rw [heq]
    refine CellStore.read_write_self (y := .internal n) ?_
    rw [CellStore.read_write_of_ne hne.symm, CellStore.read_alloc_of_lt (by simp; omega),
      CellStore.read_alloc_of_lt hthis, hn]
  have hmid : r.1.read middleNode =
      some (.listNode { m with val := h.fresh + 1, mNext := none }) := by
    rw [heq, CellStore.read_write_of_ne hne]
    refine CellStore.read_write_self (y := .listNode m) ?_
    rw [CellStore.read_alloc_of_lt (by simp; omega), CellStore.read_alloc_of_lt hmiddle, hm]
  have hright : r.1.read (h.fresh + 1) =
      some (.internal ⟨m.val, m.mNext, n.mSize - n.mSize / 2 - 1⟩) := by
    rw [heq, CellStore.read_write_of_ne (by omega), CellStore.read_write_of_ne (by omega),
      ← CellStore.fresh_alloc h (.internal ⟨this, some middleNode, 1⟩), CellStore.read_alloc_self]
  have hnew : r.1.read h.fresh = some (.internal ⟨this, some middleNode, 1⟩) := by
    rw [heq, CellStore.read_write_of_ne (by omega), CellStore.read_write_of_ne (by omega),
      CellStore.read_alloc_of_lt (by simp), CellStore.read_alloc_self]
  have hbefore {b : Nat} {c : Cell K V} (hb : b ≠ middleNode) (hc : ∀ i, c ≠ .internal i)
      (hread : r.1.read b = some c) : h.read b = some c := by
    rw [heq] at hread
    have hread := ((CellStore.read_write_cases hread).resolve_left fun e => hc _ e.2).2
    have hread := ((CellStore.read_write_cases hread).resolve_left fun e => hb e.1).2
    have hread := (CellStore.read_alloc_cases hread).resolve_left fun e => hc _ e.2
    exact (CellStore.read_alloc_cases hread).resolve_left fun e => hc _ e.2
  refine ⟨hh.of_every ?_, ⟨_, _, _, middleNode, hnew, rfl, hmid, hright⟩⟩
  have hroot_cell : HangsAs h r.1 h.fresh (.internal ⟨this, some middleNode, 1⟩ : Cell K V) := by
    refine ⟨by simp only; omega, Or.inr fun b m' l _ heq' hl => ?_⟩
    simp only [heq', hleft] at hl
    cases hl
  have hright_cell : HangsAs h r.1 (h.fresh + 1)
      (.internal ⟨m.val, m.mNext, n.mSize - n.mSize / 2 - 1⟩ : Cell K V) := by
    refine ⟨by simp only; omega, Or.inr fun b m' l hm' heq' hl => ?_⟩
    by_cases hb : b = middleNode
    · rw [hb, hmid] at hm'
      cases hm'
      simp only at heq'
      omega
    · -- the child hung under the middle list node only
      have hm' := hbefore hb (by simp) hm'
      have hval' : m'.val ≠ middleNode := by
        intro hbad
        rw [hbad, hmid] at hl
        cases hl
      exact hb (hh.once hm' hm heq'.symm (hbefore hval' (by simp) hl))
  have hmiddle_cell : HangsAs h r.1 middleNode
      (.listNode { m with val := h.fresh + 1, mNext := none } : Cell K V) := by
    refine ⟨by simp only; omega, Or.inr fun l hl => ?_⟩
    simp only [hright] at hl
    cases hl
  have hleft_cell : HangsAs h r.1 this (.internal { n with mSize := n.mSize / 2 } : Cell K V) :=
    ⟨by simp only; omega, Or.inl ⟨this, n, hn, rfl⟩⟩
  have hall := (((((hh.every (by omega : h.fresh ≤ r.1.fresh)).alloc hroot_cell).alloc
    (by rw [CellStore.fresh_alloc]; exact hright_cell)).write (fun _ _ _ hc => hc)
    hmiddle_cell).write
      (fun _ _ _ hc => hc) hleft_cell)
  rwa [← heq] at hall

theorem Hung.allocInternal (hh : Hung h) {n : Internal} (hlt : n.mLesser < h.fresh)
    (hfree : ∀ b (m : ListNode K), h.read b = some (.listNode m) → m.val ≠ n.mLesser) :
    Hung (h.alloc (.internal n)) := by
  refine hh.of_every ((hh.every (by simp)).alloc ⟨?_, Or.inr fun b m l hm heq => ?_⟩)
  · rw [CellStore.fresh_alloc]
    exact hlt.trans (Nat.lt_succ_self _)
  · have hm := (CellStore.read_alloc_cases hm).resolve_left fun e => by cases e.2
    exact absurd heq (hfree b m hm)

variable (cfg) in
theorem newInternal_hung (hh : Hung h) {l : Nat}
    (hready : ∀ k, primaryKey h l = .ok k → Ready h k l) {r : Heap K V × Nat}
    (hrun : newInternal cfg h l = .ok r) : Hung r.1 := by
  obtain ⟨key, hkey, hrun⟩ := Outcome.bind_eq_ok.mp hrun
  obtain ⟨lIsLeaf, -, hrun⟩ := Outcome.bind_eq_ok.mp hrun
  obtain rfl := Outcome.ok.inj hrun
  have hh₁ := hh.allocNode (hready key hkey) none
  have hlesser (leaf : Leaf K V) : Hung
      (((h.alloc (.listNode ⟨key, l, none⟩)).alloc (.leaf leaf)).alloc
        (.internal ⟨(h.alloc (.listNode ⟨key, l, none⟩)).fresh, some h.fresh, 1⟩)) := by
    refine (hh₁.allocLeaf leaf).allocInternal (by simp) fun b m hm => ?_
    have hm := (CellStore.read_alloc_cases hm).resolve_left fun e => by cases e.2
    exact (hh₁.child_lt hm).ne
  cases lIsLeaf with
  | true => exact hlesser _
  | false => exact hlesser _

end Set

theorem setEnd_hung (hh : Hung h) {this : Nat} {r : Heap K V × Option Nat}
    (hrun : setEnd cfg h this = .ok r) : Hung r.1 ∧ ∀ iN, r.2 = some iN → IsGraft r.1 iN := by
  obtain ⟨n, -, hrun⟩ := Outcome.bind_eq_ok.mp hrun
  split at hrun
  · obtain ⟨s, hsplit, hrun⟩ := Outcome.bind_eq_ok.mp hrun
    obtain rfl := Outcome.ok.inj hrun
    obtain ⟨hh', hgraft⟩ := internalSplit_hung hh hsplit
    refine ⟨hh', ?_⟩
    rintro iN ⟨⟩
    exact hgraft
  · obtain rfl := Outcome.ok.inj hrun
    exact ⟨hh, fun iN h => by cases h⟩

theorem internalSet_hung (hcfg : cfg.Admissible) (hk : HeapKept cfg none h) (hh : Hung h)
    {fuel this : Nat} {key : K} {val : V} {r : Heap K V × Option Nat}
    (hrun : internalSet cfg fuel h this key val = .ok r) :
    Hung r.1 ∧ ∀ iN, r.2 = some iN → IsGraft r.1 iN := by
  induction fuel generalizing this r with
  | zero => cases hrun
  | succ fuel ih =>
    rw [internalSet_succ] at hrun
    obtain ⟨child, hroute, hrun⟩ := Outcome.bind_eq_ok.mp hrun
    obtain ⟨leaf, hleaf, hrun⟩ := Outcome.bind_eq_ok.mp hrun
    obtain ⟨h', hchild, hrun⟩ := Outcome.bind_eq_ok.mp hrun
    refine setEnd_hung ?_ hrun
    cases leaf with
    | true =>
      obtain ⟨r₁, hinsert, hchild⟩ := Outcome.bind_eq_ok.mp hchild
      obtain ⟨l, hl, -⟩ := Outcome.bind_eq_ok.mp hinsert
      obtain ⟨hh₁, hready⟩ := leafInsert_hung hcfg hk hh
        (fun a n hn hval => hh.le_of_getChildGe hroute (derefLeaf_ok hl) hn hval) hinsert
      split at hchild
      · obtain rfl := Outcome.ok.inj hchild
        exact hh₁
      · rename_i q hq
        exact insertLeaf_hung hh₁ (fun k hkey => hready q k hq hkey) hchild
    | false =>
      obtain ⟨r₁, hset, hchild⟩ := Outcome.bind_eq_ok.mp hchild
      obtain ⟨hh₁, hgraft⟩ := ih hset
      split at hchild
      · obtain rfl := Outcome.ok.inj hchild
        exact hh₁
      · rename_i iN hiN
        exact insertInternal_hung hh₁ (hgraft iN hiN) hchild

/-! ## Trees -/

theorem Tree.set_hung (hcfg : cfg.Admissible) {t t' : Tree K V} (hk : t.Kept cfg) (hh : Hung t.heap)
    {fuel : Nat} {key : K} {val : V} (hrun : t.set cfg fuel key val = .ok t') : Hung t'.heap := by
  unfold Tree.set at hrun
  split at hrun
  · obtain ⟨r, hr, hrun⟩ := Outcome.bind_eq_ok.mp hrun
    obtain rfl := Outcome.ok.inj hrun
    have hsorted : Sorted ((LeafList.mk [] (cfg.staleSize t.heap.fresh)).set key val).nodes :=
      List.pairwise_singleton _ _
    exact newInternal_hung cfg (hh.allocLeaf _) (fun k hkey => hh.ready_new hsorted hkey) hr
  · obtain ⟨r, hr, hrun⟩ := Outcome.bind_eq_ok.mp hrun
    have hh₁ := (internalSet_hung hcfg hk.cells hh hr).1
    split at hrun
    · obtain rfl := Outcome.ok.inj hrun
      exact hh₁
    · obtain rfl := Outcome.ok.inj hrun
      exact hh₁

/-- Every leaf holds at most `ORDER - 1` pairs and every internal node counts from one to
`ORDER - 1`; a leaf that is the child of a list node holds pairs, and none is below the list
node. -/
structure Tree.Within (o : Order) (t : Tree K V) : Prop where
  leaf : ∀ (a : Nat) (l : Leaf K V), t.heap.read a = some (.leaf l) →
    l.mList.nodes.length ≤ o.val - 1
  internal : ∀ (a : Nat) (n : Internal), t.heap.read a = some (.internal n) →
    1 ≤ n.mSize ∧ n.mSize ≤ o.val - 1
  child : ∀ (a : Nat) (n : ListNode K) (l : Leaf K V), t.heap.read a = some (.listNode n) →
    t.heap.read n.val = some (.leaf l) → l.Above n.key

theorem Tree.within_of_hung {o : Order} {t : Tree K V} (hk : t.Kept o.config) (hh : Hung t.heap) :
    t.Within o where
  leaf a l hl := (hk.cells a _ hl).capacity
  internal a n hn := by
    obtain ⟨hpos, hle⟩ := hk.cells a _ hn
    exact ⟨Nat.one_le_iff_ne_zero.mpr hpos, hle.resolve_right fun hfull => by cases hfull.1⟩
  child _ _ _ hn hl := hh.above hn hl

theorem Tree.setAll_hung (hcfg : cfg.Admissible) {t t' : Tree K V} (hk : t.Kept cfg)
    (hh : Hung t.heap) {fuel : Nat} {calls : List (K × V)}
    (hrun : Tree.setAll cfg fuel calls t = .ok t') : t'.Kept cfg ∧ Hung t'.heap := by
  induction calls generalizing t with
  | nil =>
    obtain rfl := Outcome.ok.inj hrun
    exact ⟨hk, hh⟩
  | cons c calls ih =>
    obtain ⟨t₁, hset, hrest⟩ := Outcome.bind_eq_ok.mp hrun
    exact ih (Tree.set_kept hcfg hk hset) (Tree.set_hung hcfg hk hh hset) hrest

theorem hung_empty : Hung (CellStore.empty : Heap K V) := by
  have hnone (a : Nat) (c : Cell K V) : (CellStore.empty : Heap K V).read a ≠ some c := by
    intro hc
    have hlt := CellStore.lt_fresh_of_read hc
    cases hlt
  constructor
  · exact fun hn => absurd hn (hnone _ _)
  · exact fun hn => absurd hn (hnone _ _)
  · exact fun hn => absurd hn (hnone _ _)
  · exact fun hn => absurd hn (hnone _ _)
  · exact fun hn => absurd hn (hnone _ _)

/-- Whatever keys are set, in whatever order, the run returns, and no cell of the tree is too full
or too empty. -/
theorem set_run_within (o : Order) (calls : List (K × V)) :
    ∃ t, Returns (fun fuel => Tree.setAll o.config fuel calls {}) t ∧ t.Within o := by
  obtain ⟨t, hrun, -⟩ := Tree.setAll_spec (Q := LeafPolicy.any) o.admissible calls isTree_empty
  refine ⟨t, hrun, ?_⟩
  obtain ⟨bound, hrun⟩ := hrun
  obtain ⟨hk, hh⟩ := Tree.setAll_hung o.admissible Tree.kept_empty hung_empty (hrun bound le_rfl)
  exact Tree.within_of_hung hk hh

end StateDb.Bpt
