/-
  StateDb/BptLeafRuns.lean
  ========================
  **Runs on one leaf of a tree of two levels** (`leaf.h`, `bpt_internal.h`, `list.h`).

  A tree that has one leaf, or two after a split, is a heap with a place for a leaf: what a call
  does there is what it does to the list of the leaf, and to its counter (`LeafHole`).  The counter
  of a leaf is whatever the memory held and what was added to it, so a run is a computation on the
  counter until the leaf is split, or loses its last pair.
-/
import StateDb.BptMemory

namespace StateDb.Bpt

open Lib Lib.SortedAssoc

variable {K V : Type} [LinearOrder K]

/-! ## Runs -/

theorem Tree.accessAll_append (cfg : Config) (fuel : Nat) (as bs : List (Access K V))
    (t : Tree K V) :
    Tree.accessAll cfg fuel (as ++ bs) t = (do
      let r ← Tree.accessAll cfg fuel as t
      let q ← Tree.accessAll cfg fuel bs r.1
      .ok (q.1, r.2 ++ q.2)) := by
  induction as generalizing t with
  | nil =>
    simp only [List.nil_append, Tree.accessAll, Outcome.ok_bind]
    cases Tree.accessAll cfg fuel bs t <;> rfl
  | cons a as ih =>
    simp only [List.cons_append, Tree.accessAll, ih]
    cases t.access cfg fuel a with
    | ok r =>
      simp only [Outcome.ok_bind]
      cases Tree.accessAll cfg fuel as r.1 with
      | ok q =>
        simp only [Outcome.ok_bind]
        cases Tree.accessAll cfg fuel bs q.1 <;> rfl
      | fault e => rfl
      | outOfFuel => rfl
    | fault e => rfl
    | outOfFuel => rfl

/-- The calls return, as soon as the fuel is enough for two levels. -/
def Goes (cfg : Config) (t : Tree K V) (as : List (Access K V)) (t' : Tree K V)
    (rs : List (Answer V)) : Prop :=
  ∀ fuel, Tree.accessAll cfg (fuel + 3) as t = .ok (t', rs)

/-- The calls do not return. -/
def Stuck (cfg : Config) (t : Tree K V) (as : List (Access K V)) : Prop :=
  ∀ fuel r, Tree.accessAll cfg (fuel + 3) as t ≠ .ok r

section Runs

variable {cfg cfg' : Config} {t t' t₁ t₂ : Tree K V} {a : Access K V} {r : Answer V}
  {as bs : List (Access K V)} {rs qs : List (Answer V)}

theorem Goes.nil (cfg : Config) (t : Tree K V) : Goes cfg t [] t [] := fun _ => rfl

theorem Goes.cons (ha : ∀ fuel, t.access cfg (fuel + 3) a = .ok (t₁, r))
    (h : Goes cfg t₁ as t₂ rs) :
    Goes cfg t (a :: as) t₂ (r :: rs) := by
  intro fuel
  simp only [Tree.accessAll, ha, Outcome.ok_bind, h fuel]

theorem Goes.one (ha : ∀ fuel, t.access cfg (fuel + 3) a = .ok (t₁, r)) : Goes cfg t [a] t₁ [r] :=
  .cons ha (.nil cfg t₁)

theorem Goes.append (h : Goes cfg t as t₁ rs) (h' : Goes cfg t₁ bs t₂ qs) :
    Goes cfg t (as ++ bs) t₂ (rs ++ qs) := by
  intro fuel
  simp only [Tree.accessAll_append, h fuel, Outcome.ok_bind, h' fuel]

theorem Stuck.one (ha : ∀ fuel r, t.access cfg (fuel + 3) a ≠ .ok r) : Stuck cfg t [a] := by
  intro fuel r hrun
  obtain ⟨r₁, hrun, -⟩ := Outcome.bind_eq_ok.mp hrun
  exact ha fuel r₁ hrun

theorem Stuck.append (h : Stuck cfg t as) (bs : List (Access K V)) : Stuck cfg t (as ++ bs) := by
  intro fuel r hrun
  rw [Tree.accessAll_append] at hrun
  obtain ⟨r₁, hrun, -⟩ := Outcome.bind_eq_ok.mp hrun
  exact h fuel r₁ hrun

theorem Goes.stuck (h : Goes cfg t as t₁ rs) (h' : Stuck cfg t₁ bs) : Stuck cfg t (as ++ bs) := by
  intro fuel r hrun
  rw [Tree.accessAll_append, h fuel, Outcome.ok_bind] at hrun
  obtain ⟨r₁, hrun, -⟩ := Outcome.bind_eq_ok.mp hrun
  exact h' fuel r₁ hrun

theorem Goes.returns (h : Goes cfg {} as t rs) : Returns (fun fuel => answers cfg fuel as) rs := by
  refine ⟨3, fun fuel hfuel => ?_⟩
  obtain ⟨k, rfl⟩ : ∃ k, fuel = k + 3 := ⟨fuel - 3, by omega⟩
  simp only [answers, h k, Outcome.ok_bind]

theorem Stuck.not_returns (h : Stuck cfg ({} : Tree K V) as) :
    ¬ Returns (fun fuel => answers cfg fuel as) rs := by
  rintro ⟨bound, hrun⟩
  obtain ⟨r, hrun, -⟩ := Outcome.bind_eq_ok.mp (hrun (bound + 3) (by omega))
  exact h bound r hrun

end Runs

namespace SameRuns

variable {o : Order} {stale stale' : Nat → UInt64} {as : List (Access K V)} {t t' : Tree K V}
  {rs rs' : List (Answer V)}

theorem symm (h : SameRuns K V o stale stale') : SameRuns K V o stale' stale where
  answers as rs := (h.answers as rs).symm
  contents as entries := (h.contents as entries).symm

theorem eq_of_goes (h : SameRuns K V o stale stale') (hgo : Goes (o.configIn stale) {} as t rs)
    (hgo' : Goes (o.configIn stale') {} as t' rs') : rs = rs' :=
  ((h.answers as rs).mp hgo.returns).unique hgo'.returns

theorem not_stuck (h : SameRuns K V o stale stale') (hgo : Goes (o.configIn stale) {} as t rs) :
    ¬ Stuck (o.configIn stale') ({} : Tree K V) as :=
  fun hstuck => hstuck.not_returns ((h.answers as rs).mp hgo.returns)

end SameRuns

/-! ## A place for a leaf -/

/-- A heap with a place for one leaf: `routed` keys come there from the root. -/
structure LeafHole (plug : Leaf K V → Heap K V) (root a : Nat) (n : Internal) (routed : K → Prop) :
    Prop where
  node : ∀ l, (plug l).read root = some (.internal n)
  leaf : ∀ l, (plug l).read a = some (.leaf l)
  write : ∀ l l', (plug l).write a (.leaf l') = plug l'
  route : ∀ l key fuel, routed key → getChildGe (fuel + 2) (plug l) root key = .ok a
  -- the node has one separator or two
  some_seps : n.mSize ≠ 0
  few_seps : n.mSize ≤ 2

namespace LeafHole

variable {plug : Leaf K V → Heap K V} {root a : Nat} {n : Internal} {routed : K → Prop}
  (hole : LeafHole plug root a n routed) {cfg : Config} (htwo : 2 ≤ cfg.maxSize) {l : Leaf K V}
  {key : K} {val : V}

include hole

theorem get (cfg : Config) (hkey : routed key) (fuel : Nat) :
    Tree.access cfg (fuel + 3) ⟨plug l, some root⟩ (.get key) =
      .ok (⟨plug l, some root⟩, .found (l.mList.getValPtr key)) := by
  simp only [Tree.access, Tree.get, getValPtr, isLeaf_of_internal (hole.node l),
    isLeaf_of_leaf (hole.leaf l), derefLeaf_eq (hole.leaf l), hole.route l key fuel hkey,
    Outcome.ok_bind]
  rfl

include htwo in
/-- A pair comes in. -/
theorem set_fits (hkey : routed key) {ml : LeafList K V} (hset : l.mList.set key val = ml)
    (hfits : ml.size ≤ cfg.maxSize) (fuel : Nat) :
    Tree.access cfg (fuel + 3) ⟨plug l, some root⟩ (.set key val) =
      .ok (⟨plug { l with mList := ml }, some root⟩, .done) := by
  have hfew := hole.few_seps
  simp only [Tree.access, Tree.set, internalSet_succ, hole.route l key fuel hkey,
    isLeaf_of_leaf (hole.leaf l), setChild, leafInsert, derefLeaf_eq (hole.leaf l), hset,
    hole.write, if_neg (Nat.not_lt.mpr hfits), setEnd, derefInternal_eq (hole.node _),
    Outcome.ok_bind, if_neg (show ¬ n.mSize > cfg.maxSize by omega)]

include htwo in
/-- The leaf is split where there is nothing to split. -/
theorem set_beyond (hkey : routed key) {ml : LeafList K V} (hset : l.mList.set key val = ml)
    (hfull : cfg.maxSize < ml.mSize) (hlen : 2 * ml.nodes.length ≤ ml.mSize) :
    Stuck cfg ⟨plug l, some root⟩ [.set key val] := by
  subst hset
  have hsplit := LeafList.split_beyond (htwo.trans hfull.le) hlen
  refine Stuck.one fun fuel r hrun => ?_
  simp only [Tree.access, Tree.set, internalSet_succ, hole.route l key fuel hkey,
    isLeaf_of_leaf (hole.leaf l), setChild_beyond (derefLeaf_eq (hole.leaf l)) hfull hsplit,
    Outcome.ok_bind, Outcome.fault_bind] at hrun
  cases hrun

/-- `delete_key` of a pair of the leaf, by what is left of its counter. -/
theorem baseDeleteKey_eq (hkey : routed key) {ml : LeafList K V}
    (hdelete : l.mList.deleteKey key = .ok (ml, true)) (fuel : Nat) :
    baseDeleteKey (fuel + 3) (plug l) root key =
      if ml.mSize = 0 then
        if n.mLesser = a then .ok (plug { l with mList := ml }, false)
        else do
          let h' ← deleteChild (fuel + 2) (plug { l with mList := ml }) root key
          .ok (h', true)
      else .ok (plug { l with mList := ml }, true) := by
  have hleaf : baseDeleteKey (fuel + 2) (plug l) a key =
      .ok (plug { l with mList := ml }, true) := by
    rw [baseDeleteKey]
    simp only [isLeaf_of_leaf (hole.leaf l), derefLeaf_eq (hole.leaf l), hdelete, hole.write,
      Outcome.ok_bind, if_true]
  have hsize : baseSize (plug { l with mList := ml }) a = .ok ml.mSize := by
    simp only [baseSize, hole.leaf, LeafList.size]
  rw [baseDeleteKey]
  simp only [isLeaf_of_internal (hole.node l), hole.route l key fuel hkey, hleaf, hsize,
    derefInternal_eq (hole.node _), Outcome.ok_bind, if_true, Bool.false_eq_true, if_false]

theorem baseSize_root : baseSize (plug l) root = .ok n.mSize := by
  simp only [baseSize, hole.node]

/-- A pair goes, and the counter is not zero. -/
theorem delete_keeps (cfg : Config) (hkey : routed key) {ml : LeafList K V}
    (hdelete : l.mList.deleteKey key = .ok (ml, true)) (hne : ml.mSize ≠ 0) (fuel : Nat) :
    Tree.access cfg (fuel + 3) ⟨plug l, some root⟩ (.delete key) =
      .ok (⟨plug { l with mList := ml }, some root⟩, .deleted true) := by
  simp only [Tree.access, Tree.deleteKey, hole.baseDeleteKey_eq hkey hdelete, if_neg hne,
    hole.baseSize_root, hole.some_seps, Outcome.ok_bind, and_false, if_false]

/-- A pair of the lesser leaf goes, and the counter is zero: the call says that it did nothing. -/
theorem delete_lesser (cfg : Config) (hlesser : n.mLesser = a) (hkey : routed key)
    {ml : LeafList K V} (hdelete : l.mList.deleteKey key = .ok (ml, true)) (hzero : ml.mSize = 0)
    (fuel : Nat) :
    Tree.access cfg (fuel + 3) ⟨plug l, some root⟩ (.delete key) =
      .ok (⟨plug { l with mList := ml }, some root⟩, .deleted false) := by
  simp only [Tree.access, Tree.deleteKey, hole.baseDeleteKey_eq hkey hdelete, if_pos hzero,
    if_pos hlesser, hole.baseSize_root, Outcome.ok_bind, Bool.false_eq_true, false_and, if_false]

/-- A pair of another leaf goes, and the counter is zero: the separator of the leaf is deleted. -/
theorem delete_child (cfg : Config) (hlesser : n.mLesser ≠ a) (hkey : routed key)
    {ml : LeafList K V} (hdelete : l.mList.deleteKey key = .ok (ml, true)) (hzero : ml.mSize = 0)
    (fuel : Nat) :
    Tree.access cfg (fuel + 3) ⟨plug l, some root⟩ (.delete key) = (do
      let h ← deleteChild (fuel + 2) (plug { l with mList := ml }) root key
      let size ← baseSize h root
      if size = 0 then .ok (⟨h.free root, none⟩, .deleted true)
      else .ok (⟨h, some root⟩, .deleted true)) := by
  simp only [Tree.access, Tree.deleteKey, hole.baseDeleteKey_eq hkey hdelete, if_pos hzero,
    if_neg hlesser]
  cases deleteChild (fuel + 2) (plug { l with mList := ml }) root key with
  | ok h =>
    simp only [Outcome.ok_bind, true_and]
    cases baseSize h root with
    | ok size =>
      simp only [Outcome.ok_bind]
      split <;> rfl
    | fault e => rfl
    | outOfFuel => rfl
  | fault e => rfl
  | outOfFuel => rfl

end LeafHole

/-! ## Ascending keys -/

/-- The pairs of a leaf to which the keys came one after another. -/
def pairsOf {K : Type} (val : V) (ks : List K) : List (K × V) := ks.map fun k => (k, val)

def sets (val : V) (ks : List K) : List (Access K V) := ks.map fun k => .set k val

def deletes (ks : List K) : List (Access K V) := ks.map .delete

omit [LinearOrder K] in
theorem sets_concat (val : V) (ks : List K) (k : K) :
    sets val (ks ++ [k]) = sets val ks ++ [.set k val] := by
  simp [sets]

omit [LinearOrder K] in
theorem deletes_concat (ks : List K) (k : K) :
    (deletes (ks ++ [k]) : List (Access K V)) = deletes ks ++ [.delete k] := by
  simp [deletes]

theorem sorted_pairsOf {ks : List K} (hasc : ks.Pairwise (· < ·)) (val : V) :
    Sorted (pairsOf val ks) :=
  List.pairwise_map.mpr hasc

namespace LeafList

theorem set_last {ks : List K} {key : K} (hasc : (ks ++ [key]).Pairwise (· < ·)) (val : V)
    (size : Nat) : (⟨pairsOf val ks, size⟩ : LeafList K V).set key val =
      ⟨pairsOf val (ks ++ [key]), sizeInc size⟩ := by
  obtain ⟨hks, -, hlt⟩ := List.pairwise_append.mp hasc
  have hnodes : ((⟨pairsOf val ks, size⟩ : LeafList K V).set key val).nodes =
      pairsOf val (ks ++ [key]) := by
    rw [set_nodes _ _ _ (sorted_pairsOf hks val)]
    have happ := @upsert_append_right K V _ key val (pairsOf val ks) [] (by
      intro p hp
      obtain ⟨k, hk, rfl⟩ := List.mem_map.mp hp
      exact hlt k hk key List.mem_cons_self)
    rw [List.append_nil] at happ
    rw [happ, pairsOf, pairsOf, List.map_append]
    rfl
  rcases (⟨pairsOf val ks, size⟩ : LeafList K V).set_counter key val with ⟨-, hlen, -⟩ | ⟨-, hsize⟩
  · rw [hnodes] at hlen
    simp [pairsOf] at hlen
  · rw [← hnodes, ← hsize]

theorem set_again (k : K) (val : V) (size : Nat) :
    (⟨pairsOf val [k], size⟩ : LeafList K V).set k val = ⟨pairsOf val [k], size⟩ := by
  simp [LeafList.set, LeafList.setFrom, pairsOf]

theorem deleteKey_head (k : K) (ks : List K) (val : V) (size : Nat) :
    (⟨pairsOf val (k :: ks), size⟩ : LeafList K V).deleteKey k =
      .ok (⟨pairsOf val ks, sizeDec size⟩, true) := by
  simp only [LeafList.deleteKey, pairsOf, List.map_cons, if_true]

theorem set_second {k k' : K} (hlt : k < k') (val : V) (size : Nat) :
    (⟨pairsOf val [k], size⟩ : LeafList K V).set k' val = ⟨pairsOf val [k, k'], sizeInc size⟩ :=
  @set_last K V _ [k] k' (by simpa using hlt) val size

theorem deleteKey_second {k k' : K} (hlt : k < k') (val : V) (size : Nat) :
    (⟨pairsOf val [k, k'], size⟩ : LeafList K V).deleteKey k' =
      .ok (⟨pairsOf val [k], sizeDec size⟩, true) := by
  simp [deleteKey, deleteAfter, pairsOf, hlt.ne']

omit [LinearOrder K] in
theorem split_two (k k' : K) (val : V) : (⟨pairsOf val [k, k'], 3⟩ : LeafList K V).split =
    .ok (some (⟨pairsOf val [k], 1⟩, ⟨pairsOf val [k'], 2⟩)) := by
  simp [split, pairsOf]

omit [LinearOrder K] in
/-- There is a node to cut behind. -/
theorem split_within {l : LeafList K V} (hhalf : 0 < l.mSize / 2)
    (hle : l.mSize / 2 ≤ l.nodes.length) :
    l.split = .ok (some (⟨l.nodes.take (l.mSize / 2), l.mSize / 2⟩,
      ⟨l.nodes.drop (l.mSize / 2), l.mSize - l.mSize / 2⟩)) := by
  obtain ⟨half, hsucc⟩ : ∃ half, l.mSize / 2 = half + 1 := ⟨l.mSize / 2 - 1, by omega⟩
  rw [hsucc] at hle
  simp only [split, hsucc, Nat.add_sub_cancel, Nat.succ_ne_zero, if_false,
    List.drop_eq_getElem_cons hle, List.take_succ_eq_append_getElem hle]

omit [LinearOrder K] in
/-- Where a leaf of more than `half` keys is split, by its last key at the left and its first at the
right. -/
theorem split_pairsOf {ks : List K} {size half : Nat} (hhalf : size / 2 = half) (htwo : 2 ≤ half)
    (hlt : half < ks.length) (val : V) :
    ∃ init last key' rest, ks = init ++ [last] ++ [key'] ++ rest ∧ 1 + init.length = half ∧
      (⟨pairsOf val ks, size⟩ : LeafList K V).split =
        .ok (some (⟨pairsOf val (init ++ [last]), 1 + init.length⟩,
          ⟨(key', val) :: pairsOf val rest, size - half⟩)) := by
  obtain ⟨key', rest, hright⟩ : ∃ key' rest, ks.drop half = key' :: rest :=
    List.exists_cons_of_length_pos (by rw [List.length_drop]; omega)
  have htake : (ks.take half).length = half := List.length_take_of_le hlt.le
  have hne : ks.take half ≠ [] := by
    intro hnil
    rw [hnil, List.length_nil] at htake
    omega
  obtain ⟨init, last, hleft⟩ := (List.eq_nil_or_concat' (ks.take half)).resolve_left hne
  have hlen : 1 + init.length = half := by
    rw [hleft, List.length_append, List.length_singleton] at htake
    omega
  refine ⟨init, last, key', rest, ?_, hlen, ?_⟩
  · rw [List.append_assoc _ [key'] rest, List.singleton_append, ← hleft, ← hright,
      List.take_append_drop]
  · have hsplit := split_within (l := ⟨pairsOf val ks, size⟩) (by simp only [hhalf]; omega)
      (by simp only [hhalf, pairsOf, List.length_map]; exact hlt.le)
    simp only [hhalf, pairsOf, ← List.map_take, ← List.map_drop, hleft, hright] at hsplit
    rw [hlen]
    exact hsplit

end LeafList

namespace LeafHole

variable {plug : Leaf K V → Heap K V} {root a : Nat} {n : Internal} {routed : K → Prop}
  (hole : LeafHole plug root a n routed) {cfg : Config} {next : Option Nat} {val : V}
    {ks ks' : List K}

include hole

/-- Keys above those of the leaf come in, as long as the counter allows it. -/
theorem goes_sets (htwo : 2 ≤ cfg.maxSize) (hasc : (ks ++ ks').Pairwise (· < ·))
    (hrouted : ∀ k ∈ ks', routed k) {size : Nat} (hfits : size + ks'.length ≤ cfg.maxSize)
    (hlt : cfg.maxSize < sizeMod) :
    Goes cfg ⟨plug ⟨next, ⟨pairsOf val ks, size⟩⟩, some root⟩ (sets val ks')
      ⟨plug ⟨next, ⟨pairsOf val (ks ++ ks'), size + ks'.length⟩⟩, some root⟩
      (ks'.map fun _ => .done) := by
  induction ks' generalizing ks size with
  | nil =>
    rw [List.append_nil]
    exact .nil _ _
  | cons k ks' ih =>
    rw [List.length_cons] at hfits
    rw [List.append_cons] at hasc
    have hset := LeafList.set_last (List.pairwise_append.mp hasc).1 val size
    rw [sizeInc_of_lt (by omega)] at hset
    have hfits' : size + 1 + ks'.length ≤ cfg.maxSize := by omega
    have hstep := hole.set_fits htwo (l := ⟨next, _⟩) (hrouted k List.mem_cons_self) hset
      (Nat.le_of_add_right_le hfits')
    have hrest := ih hasc (fun k' hk' => hrouted k' (List.mem_cons_of_mem _ hk')) hfits'
    rw [List.append_cons, List.length_cons, Nat.add_comm ks'.length 1, ← Nat.add_assoc]
    exact .cons hstep hrest

/-- The first keys of the leaf go, and the counter does not come to zero. -/
theorem goes_deletes (hrouted : ∀ k ∈ ks, routed k) {size : Nat} (hne : size ≠ 0)
    (hlt : size + ks.length < sizeMod) :
    Goes cfg ⟨plug ⟨next, ⟨pairsOf val (ks ++ ks'), size + ks.length⟩⟩, some root⟩ (deletes ks)
      ⟨plug ⟨next, ⟨pairsOf val ks', size⟩⟩, some root⟩ (ks.map fun _ => .deleted true) := by
  induction ks with
  | nil => exact .nil _ _
  | cons k ks ih =>
    rw [List.length_cons] at hlt
    have hdelete := LeafList.deleteKey_head k (ks ++ ks') val (size + ks.length + 1)
    rw [sizeDec_succ (by omega)] at hdelete
    rw [List.length_cons, ← Nat.add_assoc]
    exact .cons (hole.delete_keeps (l := ⟨next, _⟩) cfg (hrouted k List.mem_cons_self) hdelete
      (by simp only; omega)) (ih (fun k' hk' => hrouted k' (List.mem_cons_of_mem _ hk')) (by omega))

end LeafHole

/-! ## The first leaf and the lesser leaf -/

theorem firstTree_first (key : K) (lesser : Leaf K V) :
    LeafHole (fun l => (firstTree key l lesser).heap) 3 0 ⟨2, some 1, 1⟩ (key ≤ ·) where
  node _ := rfl
  leaf _ := rfl
  write _ _ := rfl
  route l k fuel hk := by
    show (if k < key then Outcome.ok 2 else .ok 0) = .ok 0
    exact if_neg (not_lt.mpr hk)
  some_seps := by decide
  few_seps := by decide

theorem firstTree_lesser (key : K) (first : Leaf K V) :
    LeafHole (fun l => (firstTree key first l).heap) 3 2 ⟨2, some 1, 1⟩ (· < key) where
  node _ := rfl
  leaf _ := rfl
  write _ _ := rfl
  route l k fuel hk := by
    show (if k < key then Outcome.ok 2 else .ok 0) = .ok 2
    exact if_pos hk
  some_seps := by decide
  few_seps := by decide

/-- The tree of the first pair, when its first leaf was split. -/
def cutTree (key key' : K) (left right lesser : Leaf K V) : Tree K V :=
  ⟨⟨[some (.leaf left), some (.listNode ⟨key, 0, some 5⟩), some (.leaf lesser),
    some (.internal ⟨2, some 1, 2⟩), some (.leaf right), some (.listNode ⟨key', 4, none⟩)]⟩, some 3⟩

/-- The tree of the first pair, when its lesser leaf was split. -/
def cutLesserTree (key key' : K) (first left right : Leaf K V) : Tree K V :=
  ⟨⟨[some (.leaf first), some (.listNode ⟨key, 0, none⟩), some (.leaf left),
    some (.internal ⟨2, some 5, 2⟩), some (.leaf right), some (.listNode ⟨key', 4, some 1⟩)]⟩,
    some 3⟩

theorem cutTree_left (key key' : K) (right lesser : Leaf K V) :
    LeafHole (fun l => (cutTree key key' l right lesser).heap) 3 0 ⟨2, some 1, 2⟩
      (fun k => key ≤ k ∧ k < key') where
  node _ := rfl
  leaf _ := rfl
  write _ _ := rfl
  route l k fuel hk := by
    show (if k < key then Outcome.ok 2 else _) = .ok 0
    rw [if_neg (not_lt.mpr hk.1), getChildLnGe]
    show ((if k < key' then Outcome.ok 1 else _) >>= _) = .ok 0
    rw [if_pos hk.2]
    rfl
  some_seps := by decide
  few_seps := by decide

theorem cutLesserTree_left (key key' : K) (first right : Leaf K V) :
    LeafHole (fun l => (cutLesserTree key key' first l right).heap) 3 2 ⟨2, some 5, 2⟩
      (· < key') where
  node _ := rfl
  leaf _ := rfl
  write _ _ := rfl
  route l k fuel hk := by
    show (if k < key' then Outcome.ok 2 else _) = .ok 2
    exact if_pos hk
  some_seps := by decide
  few_seps := by decide

theorem cutLesserTree_right (key key' : K) (first left : Leaf K V) :
    LeafHole (fun l => (cutLesserTree key key' first left l).heap) 3 4 ⟨2, some 5, 2⟩
      (fun k => key' ≤ k ∧ k < key) where
  node _ := rfl
  leaf _ := rfl
  write _ _ := rfl
  route l k fuel hk := by
    show (if k < key' then Outcome.ok 2 else _) = .ok 4
    rw [if_neg (not_lt.mpr hk.1), getChildLnGe]
    show ((if k < key then Outcome.ok 5 else _) >>= _) = .ok 4
    rw [if_pos hk.2]
    rfl
  some_seps := by decide
  few_seps := by decide

section Cuts

variable {cfg : Config} (htwo : 2 ≤ cfg.maxSize) {key key' k : K} {l first lesser : Leaf K V}
  {val v : V} {ml left : LeafList K V} {rest : List (K × V)} {size : Nat}
  (hset : l.mList.set k val = ml) (hfull : cfg.maxSize < ml.size)
    (hsplit : ml.split = .ok (some (left, ⟨(key', v) :: rest, size⟩)))

include hset hfull hsplit

/-- The leaf is split, and its parent takes the right half. -/
theorem LeafHole.set_cut {plug : Leaf K V → Heap K V} {root a : Nat} {n n' : Internal}
    {routed : K → Prop} (hole : LeafHole plug root a n routed) (hk : routed k) {h' : Heap K V}
    {fuel : Nat}
    (hinsert : insertNode (fuel + 2)
      (((plug { l with mList := ml }).alloc
        (.leaf ⟨l.mNext, ⟨(key', v) :: rest, size⟩⟩)).write a (.leaf ⟨some (plug l).fresh, left⟩))
      root key' (plug l).fresh (plug l).fresh = .ok h')
    (hnode : h'.read root = some (.internal n')) (hfew : n'.mSize ≤ cfg.maxSize) :
    Tree.access cfg (fuel + 3) ⟨plug l, some root⟩ (.set k val) = .ok (⟨h', some root⟩, .done) := by
  have hfresh : (plug { l with mList := ml }).fresh = (plug l).fresh := by
    rw [← hole.write l, CellStore.fresh_write]
  have hne : (plug l).fresh ≠ a := (CellStore.lt_fresh_of_read (hole.leaf l)).ne'
  have hright : primaryKey (((plug { l with mList := ml }).alloc
      (.leaf ⟨l.mNext, ⟨(key', v) :: rest, size⟩⟩)).write a (.leaf ⟨some (plug l).fresh, left⟩))
      (plug l).fresh = .ok key' := by
    rw [primaryKey, CellStore.read_write_of_ne hne, ← hfresh, CellStore.read_alloc_self]
    rfl
  simp only [Tree.access, Tree.set, internalSet_succ, hole.route l k fuel hk,
    isLeaf_of_leaf (hole.leaf l), setChild, leafInsert, derefLeaf_eq (hole.leaf l), hset,
    if_pos hfull, hole.write, leafSplit, derefLeaf_eq (hole.leaf _), hsplit, hfresh, insertLeaf,
    hright, hinsert, setEnd, derefInternal_eq hnode, if_neg (Nat.not_lt.mpr hfew), Outcome.ok_bind]

include htwo

theorem set_cutTree (hk : key ≤ k) (hkey : key < key') (fuel : Nat) :
    Tree.access cfg (fuel + 3) (firstTree key l lesser) (.set k val) =
      .ok (cutTree key key' ⟨some 4, left⟩ ⟨l.mNext, ⟨(key', v) :: rest, size⟩⟩ lesser, .done) := by
  refine (firstTree_first key lesser).set_cut hset hfull hsplit hk ?_ rfl htwo
  show (if key' < key then _ else _) = _
  rw [if_neg (not_lt.mpr hkey.le)]
  rfl

theorem set_cutLesserTree (hk : k < key) (hkey : key' < key) (fuel : Nat) :
    Tree.access cfg (fuel + 3) (firstTree key first l) (.set k val) =
      .ok (cutLesserTree key key' first ⟨some 4, left⟩ ⟨l.mNext, ⟨(key', v) :: rest, size⟩⟩,
        .done) := by
  refine (firstTree_lesser key first).set_cut hset hfull hsplit hk ?_ rfl htwo
  show (if key' < key then _ else _) = _
  rw [if_pos hkey]
  rfl

end Cuts

end StateDb.Bpt
