/-
  StateDb/LeafListNodes.lean
  ==========================
  **The nodes of a leaf's list** (`list.h`: `list_node`, `leaf_list`).

  `LeafList.lean` takes the chain of a leaf for the list of its pairs.  Here the chain is what the
  source has: nodes in the heap, linked by `m_next`, and a list that holds the pointer to the first
  one and the counter.  Each function is the source's, pointer by pointer; a null or a dangling
  pointer that is followed is a fault, and so is a `new` that finds no room.

  Each function does to the nodes what its counterpart does to the pairs (`set_refines`,
  `deleteKey_refines`, `split_refines`, `getValPtr_returns`), whatever the order of the keys and
  whatever the counter.  What it does to the heap is an `Exchange`: the nodes of other lists are
  left alone, and no node is lost.
-/
import StateDb.LeafList
import StateDb.Lib.Chain

namespace StateDb.Bpt

open Lib Lib.SortedAssoc

/-- What a call on a list ends with when it does not return. -/
inductive NodeFault where
  | badAlloc           -- `new` throws
  | memory (f : Fault)
deriving DecidableEq, Repr

/-- The nodes there is room for.  A node has an address of 64 bits, and null is not one. -/
structure Room where
  nodes : Nat
  lt : nodes < sizeMod

/-- The heap of the list nodes: `item` is `m_pair`, and `next` is `m_next`. -/
abbrev NodeHeap (K V : Type) := CellStore (Link (K × V))

/-- `leaf_list`. -/
structure LeafListObject where
  mRoot : Option Nat
  mSize : Nat
deriving DecidableEq, Repr

namespace LeafNodes

variable {K V : Type}

/-! ## Nodes -/

/-- `*node`. -/
def deref (m : NodeHeap K V) (node : Option Nat) : Outcome NodeFault (Link (K × V)) :=
  match node with
  | none => .fault (.memory .nullPointer)
  | some a =>
      match m.read a with
      | none => .fault (.memory .freedPointer)
      | some n => .ok n

/-- `new node_type(key, val)`. -/
def newNode (room : Room) (m : NodeHeap K V) (key : K) (val : V) :
    Outcome NodeFault (NodeHeap K V × Option Nat) :=
  if m.live < room.nodes then .ok (m.alloc ⟨(key, val), none⟩, some m.fresh)
  else .fault .badAlloc

/-- A member of `*node` is assigned. -/
def update (m : NodeHeap K V) (node : Option Nat) (f : Link (K × V) → Link (K × V)) :
    Outcome NodeFault (NodeHeap K V) :=
  match node with
  | none => .fault (.memory .nullPointer)
  | some a =>
      match m.read a with
      | none => .fault (.memory .freedPointer)
      | some n => .ok (m.write a (f n))

/-- `node->m_next = next`. -/
def setNext (m : NodeHeap K V) (node next : Option Nat) : Outcome NodeFault (NodeHeap K V) :=
  update m node fun n => { n with next := next }

/-- `node->m_pair.val = val`. -/
def setVal (m : NodeHeap K V) (node : Option Nat) (val : V) : Outcome NodeFault (NodeHeap K V) :=
  update m node fun n => { n with item := (n.item.1, val) }

/-- `delete node`. -/
def deleteNode (m : NodeHeap K V) (node : Option Nat) : Outcome NodeFault (NodeHeap K V) :=
  match node with
  | none => .ok m
  | some a =>
      match m.read a with
      | none => .fault (.memory .freedPointer)
      | some _ => .ok (m.free a)

/-- `list_node::skip`. -/
def skip (m : NodeHeap K V) : Nat → Option Nat → Outcome NodeFault (Option Nat)
  | 0, node => .ok node
  | _ + 1, none => .ok none
  | count + 1, some a => do
      let n ← deref m (some a)
      skip m count n.next

/-! ## The list -/

section Calls

variable [LinearOrder K]

/-- The search loop of `set`. -/
def setLoop (key : K) (m : NodeHeap K V) : Nat → Option Nat → Outcome NodeFault (Option Nat)
  | 0, _ => .outOfFuel
  | fuel + 1, node => do
      let n ← deref m node
      match n.next with
      | none => .ok node
      | some a => do
          let next ← deref m (some a)
          if next.item.1 ≤ key then setLoop key m fuel (some a) else .ok node

def set (room : Room) (fuel : Nat) (m : NodeHeap K V) (l : LeafListObject) (key : K) (val : V) :
    Outcome NodeFault (NodeHeap K V × LeafListObject) := do
  let (m, newNode) ← newNode room m key val
  match l.mRoot with
  | none => .ok (m, ⟨newNode, sizeInc l.mSize⟩)
  | some root => do
      let first ← deref m (some root)
      if key < first.item.1 then do
        let m ← setNext m newNode (some root)
        .ok (m, ⟨newNode, sizeInc l.mSize⟩)
      else do
        let node ← setLoop key m fuel (some root)
        let n ← deref m node
        if n.item.1 = key then do
          let m ← deleteNode m newNode
          let m ← setVal m node val
          .ok (m, l)
        else do
          let m ← setNext m newNode n.next
          let m ← setNext m node newNode
          .ok (m, ⟨some root, sizeInc l.mSize⟩)

/-- `split`: what it returns, the heap, the list and `dest`. -/
def split (m : NodeHeap K V) (l dest : LeafListObject) :
    Outcome NodeFault (Bool × NodeHeap K V × LeafListObject × LeafListObject) :=
  let half1 := l.mSize / 2
  if half1 = 0 then .ok (false, m, l, dest)
  else do
    let lastNode ← skip m (half1 - 1) l.mRoot
    let last ← deref m lastNode
    let m ← setNext m lastNode none
    .ok (true, m, ⟨l.mRoot, half1⟩, ⟨last.next, l.mSize - half1⟩)

def size (l : LeafListObject) : Nat := l.mSize

/-- `get_val_ptr` from `node` on: the node whose value is pointed at. -/
def getValPtr (key : K) (m : NodeHeap K V) : Nat → Option Nat → Outcome NodeFault (Option Nat)
  | 0, _ => .outOfFuel
  | _ + 1, none => .ok none
  | fuel + 1, some a => do
      let n ← deref m (some a)
      if n.item.1 = key then .ok (some a) else getValPtr key m fuel n.next

/-- The search loop of `delete_key`: the heap, and whether a node was deleted. -/
def deleteLoop (key : K) (m : NodeHeap K V) :
    Nat → Option Nat → Outcome NodeFault (NodeHeap K V × Bool)
  | 0, _ => .outOfFuel
  | fuel + 1, node => do
      let n ← deref m node
      match n.next with
      | none => .ok (m, false)
      | some nodeTmp => do
          let next ← deref m (some nodeTmp)
          if next.item.1 = key then do
            let m ← setNext m node next.next
            let m ← deleteNode m (some nodeTmp)
            .ok (m, true)
          else deleteLoop key m fuel (some nodeTmp)

def deleteKey (fuel : Nat) (m : NodeHeap K V) (l : LeafListObject) (key : K) :
    Outcome NodeFault (NodeHeap K V × LeafListObject × Bool) := do
  let mSize := sizeDec l.mSize
  let node ← deref m l.mRoot
  if key = node.item.1 then do
    let m ← deleteNode m l.mRoot
    .ok (m, ⟨node.next, mSize⟩, true)
  else do
    let (m, found) ← deleteLoop key m fuel l.mRoot
    if found then .ok (m, ⟨l.mRoot, mSize⟩, true)
    -- the delete was not performed: `m_size++` again
    else .ok (m, ⟨l.mRoot, sizeInc mSize⟩, false)

end Calls

/-! ## What a node operation does -/

section Nodes

variable {m : NodeHeap K V} {a : Nat} {n : Link (K × V)}

theorem deref_eq (h : m.read a = some n) : deref m (some a) = .ok n := by
  simp only [deref, h]

theorem setNext_eq (h : m.read a = some n) (next : Option Nat) :
    setNext m (some a) next = .ok (m.write a ⟨n.item, next⟩) := by
  simp only [setNext, update, h]

theorem setVal_eq (h : m.read a = some n) (val : V) :
    setVal m (some a) val = .ok (m.write a ⟨(n.item.1, val), n.next⟩) := by
  simp only [setVal, update, h]

theorem deleteNode_eq (h : m.read a = some n) : deleteNode m (some a) = .ok (m.free a) := by
  simp only [deleteNode, h]

theorem newNode_eq {room : Room} (h : m.live < room.nodes) (key : K) (val : V) :
    newNode room m key val = .ok (m.alloc ⟨(key, val), none⟩, some m.fresh) := if_pos h

end Nodes

/-- The list holds the pairs and the counter of `x`, in these cells. -/
structure Represents (m : NodeHeap K V) (l : LeafListObject) (cells : List (Nat × K × V))
    (x : LeafList K V) : Prop where
  linked : Chain m l.mRoot cells none
  nodes : x.nodes = items cells
  mSize : x.mSize = l.mSize

theorem Represents.eq {m : NodeHeap K V} {l : LeafListObject} {cells : List (Nat × K × V)}
    {x : LeafList K V} (h : Represents m l cells x) : x = ⟨items cells, l.mSize⟩ := by
  obtain ⟨nodes, mSize⟩ := x
  obtain ⟨-, rfl, rfl⟩ := h
  rfl

/-! ## The loops -/

section Loops

variable {m : NodeHeap K V} {p : Option Nat} {c : Nat × K × V} {rest : List (Nat × K × V)}

theorem skip_eq {left right : List (Nat × K × V)} (h : Chain m p (left ++ right) none) :
    ∃ q, skip m left.length p = .ok q ∧ Chain m q right none := by
  induction left generalizing p with
  | nil => exact ⟨p, rfl, h⟩
  | cons c cs ih =>
    obtain ⟨rfl, next, hcell, hrest⟩ := h
    obtain ⟨q, hskip, hright⟩ := ih hrest
    refine ⟨q, ?_, hright⟩
    rw [List.length_cons, skip, deref_eq hcell]
    exact hskip

/-- Past the end of the list, `skip` returns null. -/
theorem skip_past {cells : List (Nat × K × V)} (h : Chain m p cells none) {count : Nat}
    (hle : cells.length ≤ count) : skip m count p = .ok none := by
  induction cells generalizing p count with
  | nil =>
    obtain rfl : p = none := h
    cases count <;> rfl
  | cons c cs ih =>
    obtain ⟨rfl, next, hcell, hrest⟩ := h
    cases count with
    | zero => cases hle
    | succ count =>
      rw [skip, deref_eq hcell]
      exact ih hrest (Nat.le_of_succ_le_succ hle)

variable [LinearOrder K]

/-- The loop stops at the node behind which the pair belongs, or whose value is replaced. -/
theorem setLoop_returns (key : K) (val : V) (h : Chain m p (c :: rest) none) :
    ∃ left d right, c :: rest = left ++ d :: right ∧
      Returns (fun fuel => setLoop key m fuel p) (some d.1) ∧
      LeafList.setFrom key val c.2 (items rest) =
        if d.2.1 = key then (items left ++ (d.2.1, val) :: items right, false)
        else (items left ++ d.2 :: (key, val) :: items right, true) := by
  induction rest generalizing c p with
  | nil =>
    obtain ⟨rfl, next, hcell, rfl⟩ := h
    refine ⟨[], c, [], rfl, .of_succ ⟨0, ?_⟩, rfl⟩
    intro fuel _
    simp only [setLoop, deref_eq hcell, Outcome.ok_bind]
  | cons e rest ih =>
    obtain ⟨rfl, next, hcell, hrest⟩ := h
    obtain ⟨rfl, next', hcell', -⟩ := id hrest
    by_cases hle : e.2.1 ≤ key
    · obtain ⟨left, d, right, hcut, hloop, hfrom⟩ := ih hrest
      refine ⟨c :: left, d, right, by rw [hcut, List.cons_append], .of_succ ?_, ?_⟩
      · refine hloop.congr ?_
        intro fuel
        simp only [setLoop, deref_eq hcell, deref_eq hcell', Outcome.ok_bind, if_pos hle]
      · rw [items_cons, LeafList.setFrom, if_pos hle, hfrom]
        split <;> rfl
    · refine ⟨[], c, e :: rest, rfl, .of_succ ⟨0, ?_⟩, ?_⟩
      · intro fuel _
        simp only [setLoop, deref_eq hcell, deref_eq hcell', Outcome.ok_bind, if_neg hle]
      · rw [items_cons, LeafList.setFrom, if_neg hle]
        rfl

/-- The loop deletes the node of the key, or runs off the end and leaves the heap alone. -/
theorem deleteLoop_returns (key : K) (h : Chain m p (c :: rest) none) :
    (LeafList.deleteAfter key c.2 (items rest) = none ∧
      Returns (fun fuel => deleteLoop key m fuel p) (m, false)) ∨
    ∃ left d e right next, c :: rest = left ++ d :: e :: right ∧ m.read e.1 = some ⟨e.2, next⟩ ∧
      LeafList.deleteAfter key c.2 (items rest) = some (items (left ++ d :: right)) ∧
      Returns (fun fuel => deleteLoop key m fuel p)
        ((m.write d.1 ⟨d.2, next⟩).free e.1, true) := by
  induction rest generalizing c p with
  | nil =>
    obtain ⟨rfl, next, hcell, rfl⟩ := h
    refine Or.inl ⟨rfl, .of_succ ⟨0, ?_⟩⟩
    intro fuel _
    simp only [deleteLoop, deref_eq hcell, Outcome.ok_bind]
  | cons e rest ih =>
    have hnodup := h.nodup
    obtain ⟨rfl, next, hcell, hrest⟩ := h
    obtain ⟨rfl, next', hcell', -⟩ := id hrest
    by_cases hkey : e.2.1 = key
    · have hne : e.1 ≠ c.1 := fun heq =>
        (List.nodup_cons.mp hnodup).1 (heq ▸ List.mem_cons_self)
      have hwritten := (CellStore.read_write_of_ne (x := ⟨c.2, next'⟩) hne).trans hcell'
      refine Or.inr ⟨[], c, e, rest, next', rfl, hcell', ?_, .of_succ ⟨0, ?_⟩⟩
      · rw [items_cons, LeafList.deleteAfter, if_pos hkey]
        rfl
      · intro fuel _
        simp only [deleteLoop, deref_eq hcell, deref_eq hcell', Outcome.ok_bind, if_pos hkey,
          setNext_eq hcell, deleteNode_eq hwritten]
    · have hstep : ∀ fuel, deleteLoop key m (fuel + 1) (some c.1) =
          deleteLoop key m fuel (some e.1) := by
        intro fuel
        simp only [deleteLoop, deref_eq hcell, deref_eq hcell', Outcome.ok_bind, if_neg hkey]
      have hafter : LeafList.deleteAfter key c.2 (items (e :: rest)) =
          (LeafList.deleteAfter key e.2 (items rest)).map (c.2 :: ·) := by
        rw [items_cons, LeafList.deleteAfter, if_neg hkey]
      rw [hafter]
      rcases ih hrest with ⟨hnone, hloop⟩ | ⟨left, d, f, right, q, hcut, hf, hsome, hloop⟩
      · exact Or.inl ⟨by rw [hnone]; rfl, .of_succ (hloop.congr hstep)⟩
      · refine Or.inr ⟨c :: left, d, f, right, q, by rw [hcut, List.cons_append], hf, ?_,
          .of_succ (hloop.congr hstep)⟩
        rw [hsome]
        rfl

end Loops

/-! ## The calls -/

section Refinement

variable [LinearOrder K] {room : Room} {m : NodeHeap K V} {l : LeafListObject}
  {cells : List (Nat × K × V)} {x : LeafList K V}

/-- `set` on a list whose first key is not above the key. -/
theorem set_behind {p : Option Nat} {c : Nat × K × V} {rest : List (Nat × K × V)} {key : K}
    (hchain : Chain m p (c :: rest) none) (hroom : m.live < room.nodes) (hlt : ¬ key < c.2.1)
    (val : V) (mSize : Nat) :
    ∃ m' l' cells', Returns (fun fuel => set room fuel m ⟨p, mSize⟩ key val) (m', l') ∧
      Represents m' l' cells' (LeafList.set ⟨items (c :: rest), mSize⟩ key val) ∧
      Exchange m m' (addresses (c :: rest)) (addresses cells') := by
  have hnew := newNode_eq hroom key val
  have hfresh := CellStore.read_alloc_self m ⟨(key, val), none⟩
  have hold := hchain.alloc ⟨(key, val), none⟩
  obtain ⟨rfl, next, hcell, -⟩ := id hold
  obtain ⟨left, d, right, hcut, ⟨bound, hloop⟩, hfrom⟩ := setLoop_returns key val hold
  have hset : LeafList.set ⟨items (c :: rest), mSize⟩ key val =
      if d.2.1 = key then ⟨items (left ++ (d.1, d.2.1, val) :: right), mSize⟩
      else ⟨items (left ++ d :: (m.fresh, key, val) :: right), sizeInc mSize⟩ := by
    simp only [LeafList.set, items_cons, if_neg hlt, hfrom]
    split <;> simp
  rw [hset]
  rw [hcut] at hchain hold ⊢
  obtain ⟨-, next', hd, -⟩ := chain_append_cons.mp hold
  have hnot := hchain.fresh_not_mem
  have hmem : d.1 ∈ addresses (left ++ d :: right) := by simp
  have hne : d.1 ≠ m.fresh := fun heq => hnot (heq ▸ hmem)
  have halloc := Exchange.alloc m ⟨(key, val), none⟩ (addresses (left ++ d :: right))
  by_cases hkey : d.2.1 = key
  · -- the new node is freed again, and the value of the node that is there is replaced
    have hread := (CellStore.read_free_of_ne hne).trans hd
    rw [if_pos hkey]
    refine ⟨_, ⟨some c.1, mSize⟩, left ++ (d.1, d.2.1, val) :: right, ⟨bound, ?_⟩,
      ⟨(hold.free hnot).assign hread _, rfl, rfl⟩, ?_⟩
    · intro fuel hfuel
      simp only [set, hnew, Outcome.ok_bind, deref_eq hcell, if_neg hlt, hloop fuel hfuel,
        deref_eq hd, if_pos hkey, deleteNode_eq hfresh, setVal_eq hread]
    · have haddr : addresses (left ++ (d.1, d.2.1, val) :: right) =
          addresses (left ++ d :: right) := by simp
      rw [haddr]
      exact (halloc.trans (.free hfresh (.refl _))).trans (.write hread hmem _)
  · -- the new node goes behind the one the loop stopped at
    have hd' := (CellStore.read_write_of_ne (x := ⟨(key, val), next'⟩) hne).trans hd
    rw [if_neg hkey]
    refine ⟨_, ⟨some c.1, sizeInc mSize⟩, left ++ d :: (m.fresh, key, val) :: right, ⟨bound, ?_⟩,
      ⟨hold.insert hd hfresh hnot (key, val), rfl, rfl⟩, ?_⟩
    · intro fuel hfuel
      simp only [set, hnew, Outcome.ok_bind, deref_eq hcell, if_neg hlt, hloop fuel hfuel,
        deref_eq hd, if_neg hkey, setNext_eq hfresh, setNext_eq hd']
    · have hlinked := halloc.trans (.write hfresh List.mem_cons_self ⟨(key, val), next'⟩)
      refine (hlinked.trans (.write hd' (List.mem_cons_of_mem _ hmem) _)).perm ?_
      simpa using (@List.perm_middle _ m.fresh (addresses left ++ [d.1]) (addresses right)).symm

theorem set_refines (h : Represents m l cells x) (hroom : m.live < room.nodes) (key : K) (val : V) :
    ∃ m' l' cells', Returns (fun fuel => set room fuel m l key val) (m', l') ∧
      Represents m' l' cells' (x.set key val) ∧
      Exchange m m' (addresses cells) (addresses cells') := by
  obtain ⟨mRoot, mSize⟩ := l
  obtain rfl : x = ⟨items cells, mSize⟩ := h.eq
  have hchain : Chain m mRoot cells none := h.linked
  have hnew := newNode_eq hroom key val
  have hfresh := CellStore.read_alloc_self m ⟨(key, val), none⟩
  have halloc := Exchange.alloc m ⟨(key, val), none⟩ (addresses cells)
  cases cells with
  | nil =>
    obtain rfl : mRoot = none := hchain
    refine ⟨_, ⟨some m.fresh, sizeInc mSize⟩, [(m.fresh, key, val)], ⟨0, ?_⟩,
      ⟨⟨rfl, none, hfresh, rfl⟩, rfl, rfl⟩, halloc⟩
    intro fuel _
    simp only [set, hnew, Outcome.ok_bind]
  | cons c rest =>
    by_cases hlt : key < c.2.1
    · have hset : LeafList.set ⟨items (c :: rest), mSize⟩ key val =
          ⟨(key, val) :: items (c :: rest), sizeInc mSize⟩ := by
        simp only [LeafList.set, items_cons, if_pos hlt]
      have hold := hchain.alloc ⟨(key, val), none⟩
      obtain ⟨rfl, next, hcell, -⟩ := id hold
      rw [hset]
      refine ⟨_, ⟨some m.fresh, sizeInc mSize⟩, (m.fresh, key, val) :: c :: rest, ⟨0, ?_⟩,
        ⟨hold.push hfresh hchain.fresh_not_mem (key, val), rfl, rfl⟩,
        halloc.trans (.write hfresh List.mem_cons_self _)⟩
      intro fuel _
      simp only [set, hnew, Outcome.ok_bind, deref_eq hcell, if_pos hlt, setNext_eq hfresh]
    · exact set_behind hchain hroom hlt val mSize

theorem set_badAlloc (hroom : ¬ m.live < room.nodes) (fuel : Nat) (key : K) (val : V) :
    set room fuel m l key val = .fault .badAlloc := by
  simp only [set, newNode, if_neg hroom, Outcome.fault_bind]

/-- `delete_key` behind the first node. -/
theorem deleteKey_behind {c : Nat × K × V} {rest : List (Nat × K × V)} {key : K}
    (hchain : Chain m (some c.1) (c :: rest) none) (hne : key ≠ c.2.1) (mSize : Nat) {fuel : Nat}
    {r : NodeHeap K V × Bool} (hloop : deleteLoop key m fuel (some c.1) = .ok r) :
    deleteKey fuel m ⟨some c.1, mSize⟩ key =
      if r.2 then .ok (r.1, ⟨some c.1, sizeDec mSize⟩, true)
      else .ok (r.1, ⟨some c.1, sizeInc (sizeDec mSize)⟩, false) := by
  obtain ⟨-, next, hcell, -⟩ := hchain
  simp only [deleteKey, deref_eq hcell, Outcome.ok_bind, if_neg hne, hloop]

theorem deleteKey_refines (h : Represents m l cells x) {key : K} {y : LeafList K V} {b : Bool}
    (hrun : x.deleteKey key = .ok (y, b)) :
    ∃ m' l' cells', Returns (fun fuel => deleteKey fuel m l key) (m', l', b) ∧
      Represents m' l' cells' y ∧ Exchange m m' (addresses cells) (addresses cells') ∧
      (b = false → m' = m ∧ l'.mRoot = l.mRoot) := by
  obtain ⟨mRoot, mSize⟩ := l
  obtain rfl : x = ⟨items cells, mSize⟩ := h.eq
  have hchain : Chain m mRoot cells none := h.linked
  cases cells with
  | nil => cases hrun
  | cons c rest =>
    obtain ⟨rfl, next, hcell, hrest⟩ := id hchain
    simp only [LeafList.deleteKey, items_cons] at hrun
    by_cases hkey : key = c.2.1
    · rw [if_pos hkey] at hrun
      obtain ⟨rfl, rfl⟩ := Prod.mk.inj (Outcome.ok.inj hrun)
      refine ⟨m.free c.1, ⟨next, sizeDec mSize⟩, rest, ⟨0, ?_⟩,
        ⟨hrest.free (List.nodup_cons.mp hchain.nodup).1, rfl, rfl⟩, .free hcell (.refl _), by simp⟩
      intro fuel _
      simp only [deleteKey, deref_eq hcell, Outcome.ok_bind, if_pos hkey, deleteNode_eq hcell]
    · rw [if_neg hkey] at hrun
      rcases deleteLoop_returns key hchain with
        ⟨hnone, bound, hloop⟩ | ⟨left, d, e, right, q, hcut, he, hsome, bound, hloop⟩
      · -- the loop ran off the end
        rw [hnone] at hrun
        obtain ⟨rfl, rfl⟩ := Prod.mk.inj (Outcome.ok.inj hrun)
        refine ⟨m, ⟨some c.1, sizeInc (sizeDec mSize)⟩, c :: rest, ⟨bound, ?_⟩,
          ⟨hchain, rfl, rfl⟩, .refl m _, fun _ => ⟨rfl, rfl⟩⟩
        intro fuel hfuel
        exact deleteKey_behind hchain hkey mSize (hloop fuel hfuel)
      · rw [hsome] at hrun
        obtain ⟨rfl, rfl⟩ := Prod.mk.inj (Outcome.ok.inj hrun)
        have hbehind := fun fuel hfuel => deleteKey_behind hchain hkey mSize (hloop fuel hfuel)
        rw [hcut] at hchain ⊢
        obtain ⟨-, qd, hd, -⟩ := chain_append_cons.mp hchain
        have hne : e.1 ≠ d.1 := fun heq => hchain.apart.2 (heq ▸ List.mem_cons_self)
        have hunlinked := (CellStore.read_write_of_ne (x := ⟨d.2, q⟩) hne).trans he
        refine ⟨_, ⟨some c.1, sizeDec mSize⟩, left ++ d :: right, ⟨bound, hbehind⟩,
          ⟨hchain.unlink he, rfl, rfl⟩, ?_, by simp⟩
        refine (Exchange.write hd (by simp) _).trans (.free hunlinked ?_)
        simpa using (@List.perm_middle _ e.1 (addresses left ++ [d.1]) (addresses right))

/-- `delete_key` on an empty list follows the null `m_root`. -/
theorem deleteKey_nullPointer (hroot : l.mRoot = none) (fuel : Nat) (key : K) :
    deleteKey fuel m l key = .fault (.memory .nullPointer) := by
  simp only [deleteKey, hroot, deref, Outcome.fault_bind]

omit [LinearOrder K]

theorem split_false (h : Represents m l cells x) (hrun : x.split = .ok none)
    (dest : LeafListObject) : split m l dest = .ok (false, m, l, dest) := by
  have hhalf : l.mSize / 2 = 0 := by
    by_contra hhalf
    simp only [LeafList.split, h.mSize, if_neg hhalf] at hrun
    split at hrun <;> cases hrun
  simp only [split, if_pos hhalf]

theorem split_refines (h : Represents m l cells x) {left right : LeafList K V}
    (hrun : x.split = .ok (some (left, right))) (dest : LeafListObject) :
    ∃ m' l' dest' cells₁ cells₂, split m l dest = .ok (true, m', l', dest') ∧
      Represents m' l' cells₁ left ∧ Represents m' dest' cells₂ right ∧
      cells = cells₁ ++ cells₂ ∧ Exchange m m' (addresses cells) (addresses cells) := by
  obtain ⟨mRoot, mSize⟩ := l
  obtain rfl : x = ⟨items cells, mSize⟩ := h.eq
  have hchain : Chain m mRoot cells none := h.linked
  simp only [LeafList.split, items, ← List.map_drop] at hrun
  by_cases hhalf : mSize / 2 = 0
  · rw [if_pos hhalf] at hrun
    cases hrun
  · rw [if_neg hhalf] at hrun
    cases hdrop : cells.drop (mSize / 2 - 1) with
    | nil =>
      rw [hdrop] at hrun
      cases hrun
    | cons c after =>
      have hcut : cells = cells.take (mSize / 2 - 1) ++ c :: after := by
        rw [← hdrop, List.take_append_drop]
      have hlen : (cells.take (mSize / 2 - 1)).length = mSize / 2 - 1 := by
        have hafter := congrArg List.length hdrop
        simp only [List.length_drop, List.length_cons] at hafter
        rw [List.length_take]
        omega
      rw [hdrop] at hrun
      obtain ⟨rfl, rfl⟩ := Prod.mk.inj (Option.some.inj (Outcome.ok.inj hrun))
      rw [hcut] at hchain
      obtain ⟨q, hskip, rfl, next, hcell, -⟩ := skip_eq hchain
      obtain ⟨hleft, hright⟩ := hchain.cut hcell
      rw [hlen] at hskip
      refine ⟨_, ⟨mRoot, mSize / 2⟩, ⟨next, mSize - mSize / 2⟩, _, _, ?_, ⟨hleft, ?_, rfl⟩,
        ⟨hright, rfl, rfl⟩, ?_, .write hcell ?_ _⟩
      · simp only [split, if_neg hhalf, hskip, Outcome.ok_bind, deref_eq hcell, setNext_eq hcell]
      · rw [items_append, items, List.map_take]
        rfl
      · rw [List.append_assoc]
        exact hcut
      · rw [hcut]
        simp

/-- `split` with a counter that is too high follows the null pointer behind the last node. -/
theorem split_nullPointer (h : Represents m l cells x) {f : Fault} (hrun : x.split = .fault f)
    (dest : LeafListObject) : split m l dest = .fault (.memory .nullPointer) := by
  obtain rfl := h.eq
  simp only [LeafList.split, items, ← List.map_drop] at hrun
  by_cases hhalf : l.mSize / 2 = 0
  · rw [if_pos hhalf] at hrun
    cases hrun
  · rw [if_neg hhalf] at hrun
    cases hdrop : cells.drop (l.mSize / 2 - 1) with
    | nil =>
      have hskip := skip_past h.linked (List.drop_eq_nil_iff.mp hdrop)
      simp only [split, if_neg hhalf, hskip, Outcome.ok_bind, deref, Outcome.fault_bind]
    | cons c after =>
      rw [hdrop] at hrun
      cases hrun

/-- The value a pointer of `get_val_ptr` points at. -/
def pointee (m : NodeHeap K V) : Option Nat → Outcome NodeFault (Option V)
  | none => .ok none
  | some a => do
      let n ← deref m (some a)
      .ok (some n.item.2)

variable [LinearOrder K]

/-- `get_val_ptr` points at the node of the key, or at nothing. -/
theorem getValPtr_returns (key : K) {p : Option Nat} (h : Chain m p cells none) :
    ∃ node, Returns (fun fuel => getValPtr key m fuel p) node ∧
      pointee m node = .ok ((items cells).lookup key) := by
  induction cells generalizing p with
  | nil =>
    obtain rfl : p = none := h
    exact ⟨none, .of_succ ⟨0, fun _ _ => rfl⟩, rfl⟩
  | cons c rest ih =>
    obtain ⟨a, k, v⟩ := c
    obtain ⟨rfl, next, hcell, hrest⟩ := h
    simp only at hcell
    rw [items_cons, lookup_cons_pair]
    by_cases hkey : key = k
    · refine ⟨some a, .of_succ ⟨0, ?_⟩, ?_⟩
      · intro fuel _
        simp only [getValPtr, deref_eq hcell, Outcome.ok_bind, if_pos hkey.symm]
      · simp only [pointee, deref_eq hcell, Outcome.ok_bind, if_pos hkey]
    · obtain ⟨node, hloop, hval⟩ := ih hrest
      refine ⟨node, .of_succ (hloop.congr ?_), by rw [hval, if_neg hkey]⟩
      intro fuel
      simp only [getValPtr, deref_eq hcell, Outcome.ok_bind, if_neg (Ne.symm hkey)]

end Refinement

end LeafNodes

end StateDb.Bpt
