/-
  StateDb/BptTree.lean
  ====================
  **The B+ tree of the database, over an explicit heap** (`leaf.h`,
  `bpt_internal.h`, `bpt.h`).

  Leaves, internal nodes and the list nodes of an internal node are heap cells,
  and pointers are addresses, because the source shares list nodes: `split` cuts
  the list *after* the middle node, so the left half keeps the middle node as its
  last list node while the new root owns it as well.  Dereferencing a null or a
  freed pointer is a fault.  The virtual functions of `bpt_base` dispatch on the
  cell.  Every pointer walk takes fuel; a loop of the source that never ends is a
  walk for which no fuel is enough.

  `new leaf()` leaves `m_size` as the memory was: `Config.staleSize` is what was
  there, by the address of the new leaf.
-/
import StateDb.Lib.CellStore
import StateDb.LeafList

namespace StateDb.Bpt

open Lib

structure Leaf (K V : Type) where
  mNext : Option Nat := none
  mList : LeafList K V
deriving DecidableEq, Repr

/-- A `list_node` of an internal node: a separator and the child at its right. -/
structure ListNode (K : Type) where
  key : K
  val : Nat
  mNext : Option Nat := none
deriving DecidableEq, Repr

structure Internal where
  mLesser : Nat
  mRoot : Option Nat
  mSize : Nat
deriving DecidableEq, Repr

inductive Cell (K V : Type) where
  | leaf (l : Leaf K V)
  | internal (n : Internal)
  | listNode (n : ListNode K)
deriving DecidableEq, Repr

abbrev Heap (K V : Type) := CellStore (Cell K V)

/-- The template parameter `ORDER`, and the contents of fresh memory. -/
structure Config where
  order : Nat
  staleSize : Nat → Nat

/-- `max_size`, of a leaf and of an internal node. -/
def Config.maxSize (cfg : Config) : Nat := cfg.order - 1

variable {K V : Type}

/-! ## Dereferencing -/

def nonNull : Option Nat → Outcome Fault Nat
  | some a => .ok a
  | none => .fault .nullPointer

def derefLeaf (h : Heap K V) (a : Nat) : Outcome Fault (Leaf K V) :=
  match h.read a with
  | some (.leaf l) => .ok l
  | some _ => .fault .wrongType
  | none => .fault .freedPointer

def derefInternal (h : Heap K V) (a : Nat) : Outcome Fault Internal :=
  match h.read a with
  | some (.internal n) => .ok n
  | some _ => .fault .wrongType
  | none => .fault .freedPointer

def derefListNode (h : Heap K V) (a : Nat) : Outcome Fault (ListNode K) :=
  match h.read a with
  | some (.listNode n) => .ok n
  | some _ => .fault .wrongType
  | none => .fault .freedPointer

def isLeaf (h : Heap K V) (a : Nat) : Outcome Fault Bool :=
  match h.read a with
  | some (.leaf _) => .ok true
  | some (.internal _) => .ok false
  | some (.listNode _) => .fault .wrongType
  | none => .fault .freedPointer

/-- `list_node::skip`. -/
def skip (h : Heap K V) : Nat → Option Nat → Outcome Fault (Option Nat)
  | 0, node => .ok node
  | _ + 1, none => .ok none
  | count + 1, some a => do
      let n ← derefListNode h a
      skip h count n.mNext

section Algorithms

variable [LinearOrder K] (cfg : Config)

/-! ## `leaf` -/

def newLeaf (h : Heap K V) : Heap K V × Nat :=
  (h.alloc (.leaf ⟨none, ⟨[], cfg.staleSize h.fresh⟩⟩), h.fresh)

/-- `leaf(key, val)`. -/
def newLeafWith (h : Heap K V) (key : K) (val : V) : Heap K V × Nat :=
  (h.alloc (.leaf ⟨none, (LeafList.mk [] (cfg.staleSize h.fresh)).set key val⟩), h.fresh)

/-- `leaf::split`.  When `leaf_list::split` refuses, the new leaf is deleted. -/
def leafSplit (h : Heap K V) (this : Nat) : Outcome Fault (Heap K V × Option Nat) := do
  let l ← derefLeaf h this
  let halves ← l.mList.split
  match halves with
  | none => .ok ((newLeaf cfg h).1.free h.fresh, none)
  | some (left, right) =>
      let newLeaf : Leaf K V := ⟨l.mNext, right⟩
      .ok ((h.alloc (.leaf newLeaf)).write this (.leaf ⟨some h.fresh, left⟩), some h.fresh)

/-- `leaf::insert`: the new right sibling, when the leaf was split. -/
def leafInsert (h : Heap K V) (this : Nat) (key : K) (val : V) :
    Outcome Fault (Heap K V × Option Nat) := do
  let l ← derefLeaf h this
  let l' : Leaf K V := { l with mList := l.mList.set key val }
  let h' := h.write this (.leaf l')
  if l'.mList.size > cfg.maxSize then leafSplit cfg h' this
  else .ok (h', none)

/-! ## `bpt_internal` -/

/-- `primary_key`, of a leaf and of an internal node. -/
def primaryKey (h : Heap K V) (this : Nat) : Outcome Fault K :=
  match h.read this with
  | some (.leaf l) => l.mList.getRootKey
  | some (.internal n) => do
      let root ← nonNull n.mRoot
      let r ← derefListNode h root
      .ok r.key
  | some (.listNode _) => .fault .wrongType
  | none => .fault .freedPointer

/-- `bpt_internal(l)`: one separator, and an empty leaf for the lesser keys. -/
def newInternal (h : Heap K V) (l : Nat) : Outcome Fault (Heap K V × Nat) := do
  let key ← primaryKey h l
  let h1 := h.alloc (.listNode ⟨key, l, none⟩)
  let lIsLeaf ← isLeaf h1 l
  let lesser := (newLeaf cfg h1).2
  let h2 : Heap K V :=
    if lIsLeaf then
      h1.alloc (.leaf ⟨some l, ⟨[], cfg.staleSize h1.fresh⟩⟩)
    else (newLeaf cfg h1).1
  .ok (h2.alloc (.internal ⟨lesser, some h.fresh, 1⟩), h2.fresh)

/-- `get_child_ln_ge` from the list node `node` on. -/
def getChildLnGe : Nat → Heap K V → Nat → K → Outcome Fault Nat
  | 0, _, _, _ => .outOfFuel
  | fuel + 1, h, node, key => do
      let n ← derefListNode h node
      match n.mNext with
      | none => .ok node
      | some next => do
          let m ← derefListNode h next
          if key < m.key then .ok node else getChildLnGe fuel h next key

def getChildGe (fuel : Nat) (h : Heap K V) (this : Nat) (key : K) : Outcome Fault Nat := do
  let n ← derefInternal h this
  let root ← nonNull n.mRoot
  let r ← derefListNode h root
  if key < r.key then .ok n.mLesser
  else do
    let node ← getChildLnGe fuel h root key
    let c ← derefListNode h node
    .ok c.val

/-- `get_val_ptr`: the value the returned pointer points to. -/
def getValPtr : Nat → Heap K V → Nat → K → Outcome Fault (Option V)
  | 0, _, _, _ => .outOfFuel
  | fuel + 1, h, this, key => do
      let leaf ← isLeaf h this
      if leaf then do
        let l ← derefLeaf h this
        .ok (l.mList.getValPtr key)
      else do
        let child ← getChildGe fuel h this key
        getValPtr fuel h child key

/-- What `insert_leaf` and `insert_internal` share: a list node for `key`, first
in the list when the key is below the first separator, with the child `first`
there and the child `after` elsewhere. -/
def insertNode (fuel : Nat) (h : Heap K V) (this : Nat) (key : K) (first after : Nat) :
    Outcome Fault (Heap K V) := do
  let n ← derefInternal h this
  let root ← nonNull n.mRoot
  let r ← derefListNode h root
  if key < r.key then
    .ok ((h.alloc (.listNode ⟨key, first, some root⟩)).write this
      (.internal { n with mRoot := some h.fresh, mSize := sizeInc n.mSize }))
  else do
    let node ← getChildLnGe fuel h root key
    let m ← derefListNode h node
    -- `insert_after(n, node)`
    .ok (((h.alloc (.listNode ⟨key, after, m.mNext⟩)).write node
      (.listNode { m with mNext := some h.fresh })).write this
      (.internal { n with mSize := sizeInc n.mSize }))

def insertLeaf (fuel : Nat) (h : Heap K V) (this l : Nat) : Outcome Fault (Heap K V) := do
  let key ← primaryKey h l
  insertNode fuel h this key l l

/-- `insert_internal`: `iN` is a new root.  It becomes a child as a whole when it
goes first, and gives only its right child otherwise. -/
def insertInternal (fuel : Nat) (h : Heap K V) (this iN : Nat) : Outcome Fault (Heap K V) := do
  let key ← primaryKey h iN
  let n ← derefInternal h iN
  let root ← nonNull n.mRoot
  let r ← derefListNode h root
  insertNode fuel h this key iN r.val

/-- `bpt_internal::split`: the new root, with `this` at its left. -/
def internalSplit (h : Heap K V) (this : Nat) : Outcome Fault (Heap K V × Nat) := do
  let n ← derefInternal h this
  let middle := n.mSize / 2
  let mid ← skip h middle n.mRoot
  let middleNode ← nonNull mid
  let m ← derefListNode h middleNode
  let h1 := h.alloc (.internal ⟨this, some middleNode, 1⟩)
  let h2 := h1.alloc (.internal ⟨m.val, m.mNext, n.mSize - middle - 1⟩)
  let h3 := h2.write middleNode (.listNode { m with val := h1.fresh, mNext := none })
  .ok (h3.write this (.internal { n with mSize := middle }), h.fresh)

/-- `bpt_internal::set`: the new root, when this node was split. -/
def internalSet : Nat → Heap K V → Nat → K → V → Outcome Fault (Heap K V × Option Nat)
  | 0, _, _, _, _ => .outOfFuel
  | fuel + 1, h, this, key, val => do
      let child ← getChildGe fuel h this key
      let childIsLeaf ← isLeaf h child
      let h' ←
        if childIsLeaf then do
          let r ← leafInsert cfg h child key val
          match r.2 with
          | none => .ok r.1
          | some newLeaf => insertLeaf fuel r.1 this newLeaf
        else do
          let r ← internalSet fuel h child key val
          match r.2 with
          | none => .ok r.1
          | some newInternal => insertInternal fuel r.1 this newInternal
      let n ← derefInternal h' this
      if n.mSize > cfg.maxSize then do
        let s ← internalSplit h' this
        .ok (s.1, some s.2)
      else .ok (h', none)

/-- `size`, of a leaf and of an internal node. -/
def baseSize (h : Heap K V) (this : Nat) : Outcome Fault Nat :=
  match h.read this with
  | some (.leaf l) => .ok l.mList.size
  | some (.internal n) => .ok n.mSize
  | some (.listNode _) => .fault .wrongType
  | none => .fault .freedPointer

/-- The loop of `delete_child` from the list node `lN` on.  It goes round without
a step when the next node is not the one of `key`. -/
def deleteChildLoop : Nat → Heap K V → Nat → K → Outcome Fault (Heap K V)
  | 0, _, _, _ => .outOfFuel
  | fuel + 1, h, lN, key => do
      let l ← derefListNode h lN
      match l.mNext with
      | none => .ok h
      | some next => do
          let n ← derefListNode h next
          if n.key = key then
            deleteChildLoop fuel
              ((h.write lN (.listNode { l with mNext := n.mNext })).free next) lN key
          else deleteChildLoop fuel h lN key

def deleteChild (fuel : Nat) (h : Heap K V) (this : Nat) (key : K) :
    Outcome Fault (Heap K V) := do
  let n ← derefInternal h this
  let lN ← nonNull n.mRoot
  let l ← derefListNode h lN
  if l.key = key then
    .ok ((h.write this (.internal { n with mRoot := l.mNext })).free lN)
  else deleteChildLoop fuel h lN key

/-- `delete_key`, of a leaf and of an internal node. -/
def baseDeleteKey : Nat → Heap K V → Nat → K → Outcome Fault (Heap K V × Bool)
  | 0, _, _, _ => .outOfFuel
  | fuel + 1, h, this, key => do
      let leaf ← isLeaf h this
      if leaf then do
        let l ← derefLeaf h this
        let r ← l.mList.deleteKey key
        .ok (h.write this (.leaf { l with mList := r.1 }), r.2)
      else do
        let child ← getChildGe fuel h this key
        let r ← baseDeleteKey fuel h child key
        if r.2 then do
          let size ← baseSize r.1 child
          if size = 0 then do
            let n ← derefInternal r.1 this
            if n.mLesser = child then .ok (r.1, false)
            else do
              let h' ← deleteChild fuel r.1 this key
              .ok (h', true)
          else .ok (r.1, true)
        else .ok (r.1, false)

/-- `leaf::iterate`: the pairs, in the order in which the function is called. -/
def leafIterate : Nat → Heap K V → Option Nat → Outcome Fault (List (K × V))
  | 0, _, _ => .outOfFuel
  | _ + 1, _, none => .ok []
  | fuel + 1, h, some a => do
      let l ← derefLeaf h a
      let rest ← leafIterate fuel h l.mNext
      .ok (l.mList.nodes ++ rest)

/-- `iterate`, of a leaf and of an internal node. -/
def baseIterate : Nat → Heap K V → Nat → Outcome Fault (List (K × V))
  | 0, _, _ => .outOfFuel
  | fuel + 1, h, this => do
      let leaf ← isLeaf h this
      if leaf then leafIterate fuel h (some this)
      else do
        let n ← derefInternal h this
        baseIterate fuel h n.mLesser

/-! ## `tree` -/

structure Tree (K V : Type) where
  heap : Heap K V := CellStore.empty
  mRoot : Option Nat := none
deriving DecidableEq, Repr

def Tree.get (fuel : Nat) (t : Tree K V) (key : K) : Outcome Fault (Option V) :=
  match t.mRoot with
  | none => .ok none
  | some root => getValPtr fuel t.heap root key

def Tree.iterate (fuel : Nat) (t : Tree K V) : Outcome Fault (List (K × V)) :=
  match t.mRoot with
  | none => .ok []
  | some root => baseIterate fuel t.heap root

def Tree.set (fuel : Nat) (t : Tree K V) (key : K) (val : V) : Outcome Fault (Tree K V) :=
  match t.mRoot with
  | none => do
      let l := newLeafWith cfg t.heap key val
      let r ← newInternal cfg l.1 l.2
      .ok ⟨r.1, some r.2⟩
  | some root => do
      let r ← internalSet cfg fuel t.heap root key val
      match r.2 with
      | none => .ok ⟨r.1, some root⟩
      | some newRoot => .ok ⟨r.1, some newRoot⟩

def Tree.deleteKey (fuel : Nat) (t : Tree K V) (key : K) :
    Outcome Fault (Tree K V × Bool) :=
  match t.mRoot with
  | none => .ok (t, false)
  | some root => do
      let r ← baseDeleteKey fuel t.heap root key
      let size ← baseSize r.1 root
      if r.2 ∧ size = 0 then .ok (⟨r.1.free root, none⟩, r.2)
      else .ok (⟨r.1, some root⟩, r.2)

end Algorithms

end StateDb.Bpt
