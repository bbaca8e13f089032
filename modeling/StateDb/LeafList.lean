/-
  StateDb/LeafList.lean
  =====================
  **The sorted list of a leaf** (`list.h`: `list_node`, `leaf_list`).

  A leaf owns its chain of list nodes alone, so the chain is the list of its
  pairs in `m_next` order; a null `m_root` is the empty list.  The counter
  `m_size` is kept beside it, as the source keeps it, because the source splits
  by the counter and not by the chain.  `LeafListNodes.lean` has the nodes
  themselves.

  On a sorted chain whose counter is exact, `set` is `SortedAssoc.upsert` and
  `delete_key` is `SortedAssoc.remove`, and the counter stays exact.
-/
import StateDb.Lib.Outcome
import StateDb.Lib.SortedAssoc

namespace StateDb.Bpt

open Lib Lib.SortedAssoc

/-- `size_t` is 64 bits wide. -/
def sizeMod : Nat := 18446744073709551616

/-- `n++` on a `size_t`. -/
def sizeInc (n : Nat) : Nat := (n + 1) % sizeMod

/-- `n--` on a `size_t`. -/
def sizeDec (n : Nat) : Nat := (n + (sizeMod - 1)) % sizeMod

theorem sizeInc_of_lt {n : Nat} (h : n + 1 < sizeMod) : sizeInc n = n + 1 :=
  Nat.mod_eq_of_lt h

theorem sizeDec_succ {n : Nat} (h : n + 1 < sizeMod) : sizeDec (n + 1) = n := by
  unfold sizeDec sizeMod at *
  omega

theorem sizeInc_sizeDec {n : Nat} (h : n < sizeMod) : sizeInc (sizeDec n) = n := by
  unfold sizeInc sizeDec sizeMod at *
  omega

theorem sizeDec_sizeInc {n : Nat} (h : n < sizeMod) : sizeDec (sizeInc n) = n := by
  unfold sizeInc sizeDec sizeMod at *
  omega

theorem sizeInc_lt (n : Nat) : sizeInc n < sizeMod := Nat.mod_lt _ (by decide)

theorem sizeInc_wraps {n : Nat} (h : n + 1 = sizeMod) : sizeInc n = 0 := by
  rw [sizeInc, h]
  exact Nat.mod_self _

theorem sizeInc_sizeInc {n : Nat} (h : n + 2 < sizeMod) : sizeInc (sizeInc n) = n + 2 := by
  rw [sizeInc_of_lt (Nat.lt_of_succ_lt h)]
  exact sizeInc_of_lt h

/-- What the tree code can run into. -/
inductive Fault where
  | nullPointer   -- a null pointer is dereferenced
  | freedPointer  -- a pointer to a freed or never allocated object is dereferenced
  | wrongType     -- an object is used as what it is not
deriving DecidableEq, Repr

structure LeafList (K V : Type) where
  nodes : List (K × V)
  mSize : Nat
deriving DecidableEq, Repr

namespace LeafList

variable {K V : Type} [LinearOrder K]

/-- The search loop of `set` from the list node `node` on, and what is done where
it stops: the chain from `node` on, and whether a node was added to it. -/
def setFrom (key : K) (val : V) : K × V → List (K × V) → List (K × V) × Bool
  | node, next :: rest =>
      if next.1 ≤ key then
        (node :: (setFrom key val next rest).1, (setFrom key val next rest).2)
      else if node.1 = key then ((node.1, val) :: next :: rest, false)
      else (node :: (key, val) :: next :: rest, true)
  | node, [] =>
      if node.1 = key then ([(node.1, val)], false)
      else ([node, (key, val)], true)

def set (l : LeafList K V) (key : K) (val : V) : LeafList K V :=
  match l.nodes with
  | [] => ⟨[(key, val)], sizeInc l.mSize⟩
  | root :: rest =>
      if key < root.1 then ⟨(key, val) :: root :: rest, sizeInc l.mSize⟩
      else if (setFrom key val root rest).2 then
        ⟨(setFrom key val root rest).1, sizeInc l.mSize⟩
      else ⟨(setFrom key val root rest).1, l.mSize⟩

/-- `split(dest)`: the list that stays and the list `dest` is given, or `none`
when the source returns `false`.  Both fields of `dest` are overwritten. -/
def split (l : LeafList K V) : Outcome Fault (Option (LeafList K V × LeafList K V)) :=
  let half1 := l.mSize / 2
  if half1 = 0 then .ok none
  else
    -- `m_root->skip(half1 - 1)`, then `lastNode->m_next`
    match l.nodes.drop (half1 - 1) with
    | [] => .fault .nullPointer
    | lastNode :: after =>
        .ok (some (⟨l.nodes.take (half1 - 1) ++ [lastNode], half1⟩,
          ⟨after, l.mSize - half1⟩))

def size (l : LeafList K V) : Nat := l.mSize

def getValPtr (l : LeafList K V) (key : K) : Option V := l.nodes.lookup key

/-- The search loop of `delete_key` from `node` on: the chain without the node of
`key`, or `none` when the loop runs off the end. -/
def deleteAfter (key : K) : K × V → List (K × V) → Option (List (K × V))
  | node, next :: rest =>
      if next.1 = key then some (node :: rest)
      else (deleteAfter key next rest).map (node :: ·)
  | _, [] => none

def deleteKey (l : LeafList K V) (key : K) : Outcome Fault (LeafList K V × Bool) :=
  match l.nodes with
  | [] => .fault .nullPointer
  | root :: rest =>
      if key = root.1 then .ok (⟨rest, sizeDec l.mSize⟩, true)
      else
        match deleteAfter key root rest with
        | some nodes => .ok (⟨nodes, sizeDec l.mSize⟩, true)
        -- the delete was not performed: `m_size++` again
        | none => .ok (⟨root :: rest, sizeInc (sizeDec l.mSize)⟩, false)

def getRootKey (l : LeafList K V) : Outcome Fault K :=
  match l.nodes with
  | [] => .fault .nullPointer
  | root :: _ => .ok root.1

/-! ## Specification -/

/-- The counter is the length of the chain. -/
def Sized (l : LeafList K V) : Prop := l.mSize = l.nodes.length

theorem setFrom_nodes (key : K) (val : V) (node : K × V) (rest : List (K × V))
    (hle : node.1 ≤ key) (hs : Sorted (node :: rest)) :
    (setFrom key val node rest).1 = upsert key val (node :: rest) := by
  induction rest generalizing node with
  | nil =>
    unfold setFrom upsert
    by_cases h : node.1 = key
    · simp [h]
    · simp [h, Ne.symm h, not_lt.mpr hle, upsert]
  | cons next rest ih =>
    obtain ⟨hnode, hrest⟩ := sorted_cons.mp hs
    have hlt : node.1 < next.1 := hnode next List.mem_cons_self
    unfold setFrom
    by_cases hnext : next.1 ≤ key
    · rw [if_pos hnext]
      have hne : key ≠ node.1 := (lt_of_lt_of_le hlt hnext).ne'
      simp [upsert, not_lt.mpr hle, hne, ih next hnext hrest]
    · rw [if_neg hnext]
      by_cases h : node.1 = key
      · simp [upsert, h]
      · have hk : key < next.1 := not_le.mp hnext
        simp [upsert, h, Ne.symm h, not_lt.mpr hle, hk]

theorem setFrom_length (key : K) (val : V) (node : K × V) (rest : List (K × V)) :
    (setFrom key val node rest).1.length =
      rest.length + 1 + if (setFrom key val node rest).2 then 1 else 0 := by
  induction rest generalizing node with
  | nil => unfold setFrom; split <;> simp
  | cons next rest ih =>
    unfold setFrom
    split
    · simp only [List.length_cons, ih next]
      omega
    · split <;> simp

theorem set_nodes (l : LeafList K V) (key : K) (val : V) (hs : Sorted l.nodes) :
    (l.set key val).nodes = upsert key val l.nodes := by
  obtain ⟨nodes, size⟩ := l
  cases nodes with
  | nil => rfl
  | cons root rest =>
    simp only [set]
    by_cases hlt : key < root.1
    · simp [hlt, upsert]
    · rw [if_neg hlt]
      have h := setFrom_nodes key val root rest (not_lt.mp hlt) hs
      split <;> exact h

theorem set_sized {l : LeafList K V} (key : K) (val : V) (h : l.Sized)
    (hlt : l.nodes.length + 1 < sizeMod) : (l.set key val).Sized := by
  obtain ⟨nodes, size⟩ := l
  simp only [Sized] at h hlt ⊢
  subst h
  cases nodes with
  | nil => exact sizeInc_of_lt hlt
  | cons root rest =>
    simp only [set]
    split
    · simpa using sizeInc_of_lt hlt
    · have hlen := setFrom_length key val root rest
      split
      · rename_i hadd
        simp only [hadd, if_true] at hlen
        rw [sizeInc_of_lt hlt, hlen]
        rfl
      · rename_i hadd
        simp only [hadd] at hlen
        simp [hlen]

omit [LinearOrder K] in
/-- A list of at least two pairs with an exact counter is cut in two non-empty
lists with exact counters. -/
theorem split_eq {l : LeafList K V} (h : l.Sized) (hlen : 2 ≤ l.nodes.length) :
    ∃ left right : List (K × V), l.nodes = left ++ right ∧ left ≠ [] ∧ right ≠ [] ∧
      left.length = l.nodes.length / 2 ∧
      l.split = .ok (some (⟨left, left.length⟩, ⟨right, right.length⟩)) := by
  obtain ⟨nodes, size⟩ := l
  simp only [Sized] at h hlen ⊢
  subst h
  have hhalf : 0 < nodes.length / 2 := by omega
  obtain ⟨last, after, hdrop⟩ :
      ∃ last after, nodes.drop (nodes.length / 2 - 1) = last :: after := by
    cases hd : nodes.drop (nodes.length / 2 - 1) with
    | nil =>
      have := congrArg List.length hd
      simp at this
      omega
    | cons a b => exact ⟨a, b, rfl⟩
  have hcut : nodes = (nodes.take (nodes.length / 2 - 1) ++ [last]) ++ after := by
    rw [List.append_assoc, List.singleton_append, ← hdrop, List.take_append_drop]
  have hafter : after.length = nodes.length - nodes.length / 2 := by
    have := congrArg List.length hdrop
    simp only [List.length_drop, List.length_cons] at this
    omega
  have hleft : (nodes.take (nodes.length / 2 - 1) ++ [last]).length = nodes.length / 2 := by
    simp only [List.length_append, List.length_take, List.length_singleton]
    omega
  refine ⟨nodes.take (nodes.length / 2 - 1) ++ [last], after, hcut, by simp, ?_, hleft, ?_⟩
  · rintro rfl
    simp only [List.length_nil] at hafter
    omega
  · simp only [split, if_neg (by omega : ¬ nodes.length / 2 = 0), hdrop]
    rw [hleft, hafter]

theorem deleteAfter_eq (key : K) (node : K × V) (rest : List (K × V))
    (hne : key ≠ node.1) (hs : Sorted (node :: rest)) :
    deleteAfter key node rest =
      if (node :: rest).lookup key = none then none else some (remove key (node :: rest)) := by
  induction rest generalizing node with
  | nil => simp [deleteAfter, hne]
  | cons next rest ih =>
    obtain ⟨-, hrest⟩ := sorted_cons.mp hs
    unfold deleteAfter
    by_cases hk : next.1 = key
    · subst hk
      have hl : (node :: next :: rest).lookup next.1 = some next.2 := by
        rw [lookup_cons_pair, if_neg hne, lookup_cons_pair, if_pos rfl]
      rw [if_pos rfl, if_neg (by simp [hl]), remove_cons_of_ne _ (Ne.symm hne),
        remove_cons_self hrest]
    · rw [if_neg hk, ih next (Ne.symm hk) hrest, remove_cons_of_ne _ (Ne.symm hne)]
      have hl : (node :: next :: rest).lookup key = (next :: rest).lookup key := by
        rw [lookup_cons_pair, if_neg hne]
      rw [hl]
      split <;> rfl

/-- `delete_key` on a non-empty sorted chain. -/
theorem deleteKey_eq {l : LeafList K V} (key : K) (hs : Sorted l.nodes) (h : l.Sized)
    (hlt : l.nodes.length < sizeMod) (hne : l.nodes ≠ []) :
    ∃ l', l.deleteKey key = .ok (l', (l.nodes.lookup key).isSome) ∧
      l'.nodes = remove key l.nodes ∧ l'.Sized := by
  obtain ⟨nodes, size⟩ := l
  simp only [Sized] at h hlt hs hne ⊢
  subst h
  cases nodes with
  | nil => exact absurd rfl hne
  | cons root rest =>
    obtain ⟨kr, vr⟩ := root
    simp only [deleteKey]
    by_cases hk : key = kr
    · subst hk
      refine ⟨⟨rest, sizeDec (rest.length + 1)⟩, by simp, (remove_cons_self hs).symm, ?_⟩
      exact sizeDec_succ hlt
    · rw [if_neg hk, deleteAfter_eq key (kr, vr) rest hk hs]
      by_cases hl : ((kr, vr) :: rest).lookup key = none
      · refine ⟨⟨(kr, vr) :: rest, sizeInc (sizeDec (rest.length + 1))⟩, by simp [hl],
          (remove_of_absent hl).symm, ?_⟩
        exact sizeInc_sizeDec hlt
      · obtain ⟨w, hw⟩ := Option.ne_none_iff_exists'.mp hl
        refine ⟨⟨remove key ((kr, vr) :: rest), sizeDec (rest.length + 1)⟩, by simp [hw], rfl, ?_⟩
        have hlen := length_remove hs hl
        simp only [List.length_cons] at hlen hlt
        show sizeDec (rest.length + 1) = (remove key ((kr, vr) :: rest)).length
        rw [sizeDec_succ hlt]
        omega

/-! ## Lists that are kept -/

/-- A sorted list with an exact counter and at most `cap` pairs. -/
structure Kept (cap : Nat) (l : LeafList K V) : Prop where
  sorted : Sorted l.nodes
  sized : l.Sized
  capacity : l.nodes.length ≤ cap

namespace Kept

variable {cap : Nat} {l : LeafList K V}

theorem empty (cap : Nat) : Kept cap (⟨[], 0⟩ : LeafList K V) :=
  ⟨sorted_nil, rfl, Nat.zero_le cap⟩

theorem mono {cap' : Nat} (h : Kept cap l) (hle : cap ≤ cap') : Kept cap' l :=
  ⟨h.sorted, h.sized, h.capacity.trans hle⟩

theorem set (h : Kept cap l) (key : K) (val : V) (hcap : cap + 1 < sizeMod) :
    Kept (cap + 1) (l.set key val) := by
  have hnodes := set_nodes l key val h.sorted
  have hlen := length_upsert_le key val l.nodes
  have hle := h.capacity
  refine ⟨hnodes ▸ sorted_upsert h.sorted key val, set_sized key val h.sized (by omega), ?_⟩
  rw [hnodes]
  omega

/-- A list with one pair too many is cut in two lists. -/
theorem split (h : Kept (cap + 1) l) (hcap : 1 ≤ cap) (hfull : cap < l.nodes.length) :
    ∃ left right : LeafList K V, l.split = .ok (some (left, right)) ∧ Kept cap left ∧
      Kept cap right := by
  obtain ⟨left, right, happ, -, -, hleft, hrun⟩ := split_eq h.sized (by omega)
  have hsorted := h.sorted
  have hlen := h.capacity
  rw [happ] at hsorted hlen hfull hleft
  rw [List.length_append] at hlen hfull hleft
  obtain ⟨hsortL, hsortR, -⟩ := sorted_append.mp hsorted
  exact ⟨_, _, hrun, ⟨hsortL, rfl, by simp only; omega⟩, ⟨hsortR, rfl, by simp only; omega⟩⟩

theorem deleteKey (h : Kept cap l) (hcap : cap < sizeMod) {key : K} {r : LeafList K V × Bool}
    (hrun : l.deleteKey key = .ok r) : Kept cap r.1 := by
  have hne : l.nodes ≠ [] := by
    intro hnil
    simp [LeafList.deleteKey, hnil] at hrun
  obtain ⟨l', hrun', hnodes, hsized⟩ :=
    deleteKey_eq key h.sorted h.sized (h.capacity.trans_lt hcap) hne
  obtain rfl := Outcome.ok.inj (hrun'.symm.trans hrun)
  refine ⟨hnodes ▸ sorted_remove h.sorted key, hsized, ?_⟩
  rw [hnodes]
  exact (List.length_filter_le _ _).trans h.capacity

end Kept

end LeafList

end StateDb.Bpt
