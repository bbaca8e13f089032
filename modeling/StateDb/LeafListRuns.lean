/-
  StateDb/LeafListRuns.lean
  =========================
  **Runs of calls on the lists of leaves** (`list.h`).

  Several lists have their nodes in one heap: the one a run starts with, and those that were split
  off since.  What every call preserves is `Inv`: each list holds sorted cells and an exact counter,
  no two lists share a cell, and every cell of the heap is on some list.  The heap has room for
  less than 2^64 nodes, so that no counter wraps around.
-/
import Mathlib.Data.List.Perm.Basic
import StateDb.LeafListNodes

namespace StateDb.Bpt.LeafNodes

open Lib Lib.SortedAssoc

variable {K V : Type}

/-! ## Calls -/

/-- The lists there are, and the heap their nodes lie in. -/
structure Lists (K V : Type) where
  heap : NodeHeap K V
  objects : List LeafListObject
deriving DecidableEq, Repr

/-- A call on the `i`-th list.  The list that `split` is given has a null `m_root`, and in its
counter what the memory held before. -/
inductive ListCall (K V : Type) where
  | set (i : Nat) (key : K) (val : V)
  | deleteKey (i : Nat) (key : K)
  | split (i : Nat) (stale : Nat)
deriving DecidableEq, Repr

/-- What a call returns, and of `split` also what became of `dest`. -/
inductive ListAnswer where
  | set
  | deleteKey (returned : Bool)
  | split (returned : Bool) (dest : LeafListObject)
deriving DecidableEq, Repr

namespace Lists

def object (s : Lists K V) (i : Nat) : Outcome NodeFault LeafListObject :=
  match s.objects[i]? with
  | none => .fault (.memory .freedPointer)  -- there is no such list
  | some l => .ok l

variable [LinearOrder K]

def call (room : Room) (fuel : Nat) (s : Lists K V) :
    ListCall K V → Outcome NodeFault (Lists K V × ListAnswer)
  | .set i key val => do
      let l ← s.object i
      let (m, l) ← LeafNodes.set room fuel s.heap l key val
      .ok (⟨m, s.objects.set i l⟩, .set)
  | .deleteKey i key => do
      let l ← s.object i
      let (m, l, b) ← LeafNodes.deleteKey fuel s.heap l key
      .ok (⟨m, s.objects.set i l⟩, .deleteKey b)
  | .split i stale => do
      let l ← s.object i
      let (b, m, l, dest) ← LeafNodes.split s.heap l ⟨none, stale⟩
      if b then .ok (⟨m, s.objects.set i l ++ [dest]⟩, .split true dest)
      else .ok (⟨m, s.objects.set i l⟩, .split false dest)

def calls (room : Room) (fuel : Nat) :
    List (ListCall K V) → Lists K V → Outcome NodeFault (Lists K V)
  | [], s => .ok s
  | c :: cs, s => do
      let r ← s.call room fuel c
      calls room fuel cs r.1

/-- One empty list, whose counter is 0. -/
def start : Lists K V := ⟨.empty, [⟨none, 0⟩]⟩

end Lists

/-! ## What the lists hold -/

/-- The pairs of a list along `m_next`. -/
def Holds (m : NodeHeap K V) (l : LeafListObject) (pairs : List (K × V)) : Prop :=
  ∃ cells, Chain m l.mRoot cells none ∧ items cells = pairs

/-- The pairs of every list. -/
def Contents (s : Lists K V) (contents : List (List (K × V))) : Prop :=
  List.Forall₂ (Holds s.heap) s.objects contents

variable [LinearOrder K]

/-- Looked up with `get_val_ptr` in the `i`-th list, `key` has the value `v`, or none. -/
def Finds (s : Lists K V) (i : Nat) (key : K) (v : Option V) : Prop :=
  ∃ l node, s.objects[i]? = some l ∧
    Returns (fun fuel => getValPtr key s.heap fuel l.mRoot) node ∧ pointee s.heap node = .ok v

/-! ## Lists that own their cells -/

/-- A list with the cells that are linked from it. -/
structure Held (K V : Type) where
  list : LeafListObject
  cells : List (Nat × K × V)

namespace Held

def foot (e : Held K V) : List Nat := addresses e.cells

def pairs (e : Held K V) : List (K × V) := items e.cells

/-- No cell of the one is a cell of the other. -/
def Apart (e f : Held K V) : Prop := ∀ a ∈ e.foot, a ∉ f.foot

omit [LinearOrder K] in
theorem Apart.symm {e f : Held K V} (h : Apart e f) : Apart f e := fun a ha hin => h a hin ha

structure Good (m : NodeHeap K V) (e : Held K V) : Prop where
  linked : Chain m e.list.mRoot e.cells none
  sorted : Sorted e.pairs
  sized : e.list.mSize = e.cells.length

theorem Good.represents {m : NodeHeap K V} {e : Held K V} (h : e.Good m) :
    Represents m e.list e.cells ⟨e.pairs, e.list.mSize⟩ := ⟨h.linked, rfl, rfl⟩

theorem Good.of_represents {m : NodeHeap K V} {l : LeafListObject} {cells : List (Nat × K × V)}
    {x : LeafList K V} (h : Represents m l cells x) (hs : Sorted x.nodes) (hsized : x.Sized) :
    Good m ⟨l, cells⟩ := by
  have hsorted : Sorted (items cells) := h.nodes ▸ hs
  refine ⟨h.linked, hsorted, ?_⟩
  rw [← h.mSize, hsized, h.nodes, length_items]

end Held

structure Owned (room : Room) (m : NodeHeap K V) (held : List (Held K V)) : Prop where
  good : ∀ e ∈ held, e.Good m
  apart : held.Pairwise Held.Apart
  live : m.live = (held.flatMap Held.foot).length
  room : m.live ≤ room.nodes

namespace Owned

variable {room : Room} {m m' : NodeHeap K V} {e : Held K V} {held held' rest news : List (Held K V)}

theorem perm (h : Owned room m held) (hperm : held.Perm held') : Owned room m held' := by
  refine ⟨fun e he => h.good e (hperm.mem_iff.mpr he), ?_, ?_, h.room⟩
  · exact (hperm.pairwise_iff Held.Apart.symm).mp h.apart
  · rw [h.live]
    exact (hperm.flatMap_right _).length_eq

theorem length_le (h : Owned room m (e :: rest)) : e.cells.length ≤ m.live := by
  rw [h.live, List.flatMap_cons, List.length_append, Held.foot, length_addresses]
  omega

/-- The cells of one list go over to new lists: the others are left alone. -/
theorem exchange (h : Owned room m (e :: rest))
    (hx : Exchange m m' e.foot (news.flatMap Held.foot)) (hgood : ∀ f ∈ news, f.Good m')
    (happart : news.Pairwise Held.Apart) (hroom : m'.live ≤ room.nodes) :
    Owned room m' (news ++ rest) := by
  obtain ⟨hother, hrest⟩ := List.pairwise_cons.mp h.apart
  refine ⟨?_, List.pairwise_append.mpr ⟨happart, hrest, ?_⟩, ?_, hroom⟩
  · intro f hf
    rcases List.mem_append.mp hf with hnew | hold
    · exact hgood f hnew
    · obtain ⟨hlinked, hsorted, hsized⟩ := h.good f (List.mem_cons_of_mem e hold)
      exact ⟨hx.chain hlinked (hother f hold).symm, hsorted, hsized⟩
  · intro f hf g hg a ha hin
    rcases hx.taken a (List.mem_flatMap.mpr ⟨f, hf, ha⟩) with hold | hnone
    · exact hother g hg a hold hin
    · obtain ⟨n, hn⟩ := (h.good g (List.mem_cons_of_mem e hg)).linked.read_of_mem hin
      rw [hnone] at hn
      cases hn
  · have hlive := hx.live
    rw [h.live, List.flatMap_cons, List.length_append] at hlive
    rw [List.flatMap_append, List.length_append]
    omega

end Owned

/-- The lists own their cells, and nothing else lies in the heap. -/
structure Inv (room : Room) (s : Lists K V) (held : List (Held K V)) : Prop where
  objects : s.objects = held.map Held.list
  owned : Owned room s.heap held

namespace Inv

variable {room : Room} {s : Lists K V} {held : List (Held K V)} {e : Held K V} {i : Nat}

theorem start (room : Room) : Inv room (Lists.start : Lists K V) [⟨⟨none, 0⟩, []⟩] := by
  refine ⟨rfl, ?_, List.pairwise_singleton _ _, rfl, Nat.zero_le _⟩
  intro e he
  obtain rfl := List.mem_singleton.mp he
  exact ⟨rfl, sorted_nil, rfl⟩

theorem exists_held (h : Inv room s held) {l : LeafListObject} (hl : s.objects[i]? = some l) :
    ∃ e, held[i]? = some e ∧ e.list = l := by
  rw [h.objects, List.getElem?_map] at hl
  exact Option.map_eq_some_iff.mp hl

theorem object_eq (h : Inv room s held) (he : held[i]? = some e) : s.object i = .ok e.list := by
  rw [Lists.object, h.objects, List.getElem?_map, he]
  rfl

/-- The `i`-th list in front. -/
theorem front (h : Inv room s held) (he : held[i]? = some e) :
    Owned room s.heap (e :: held.eraseIdx i) := by
  obtain ⟨hi, rfl⟩ := List.getElem?_eq_some_iff.mp he
  exact h.owned.perm (List.getElem_cons_eraseIdx_perm hi).symm

/-- The cells of the `i`-th list go over to that list and to one behind the others. -/
theorem exchange (h : Inv room s held) (he : held[i]? = some e) {m' : NodeHeap K V} {e' : Held K V}
    {new : List (Held K V)} (hx : Exchange s.heap m' e.foot ((e' :: new).flatMap Held.foot))
    (hgood : ∀ f ∈ e' :: new, f.Good m') (happart : (e' :: new).Pairwise Held.Apart)
    (hroom : m'.live ≤ room.nodes) :
    Inv room ⟨m', s.objects.set i e'.list ++ new.map Held.list⟩ (held.set i e' ++ new) := by
  refine ⟨?_, ((h.front he).exchange hx hgood happart hroom).perm ?_⟩
  · rw [h.objects, List.map_append, List.map_set]
  · obtain ⟨hi, rfl⟩ := List.getElem?_eq_some_iff.mp he
    have hset := (List.set_perm_cons_eraseIdx hi e').symm
    refine List.Perm.trans ?_ (hset.append_right new)
    simpa using List.perm_append_comm

/-- The `i`-th list has one pair more at most. -/
theorem replace (h : Inv room s held) (he : held[i]? = some e) {m' : NodeHeap K V}
    {l' : LeafListObject} {cells' : List (Nat × K × V)} {y : LeafList K V}
    (hrep : Represents m' l' cells' y) (hx : Exchange s.heap m' e.foot (addresses cells'))
    (hs : Sorted y.nodes) (hsized : y.Sized) (hroom : m'.live ≤ room.nodes) :
    Inv room ⟨m', s.objects.set i l'⟩ (held.set i ⟨l', cells'⟩) := by
  have hfoot : Exchange s.heap m' e.foot ([(⟨l', cells'⟩ : Held K V)].flatMap Held.foot) := by
    simpa [Held.foot] using hx
  have hgood : ∀ f ∈ [(⟨l', cells'⟩ : Held K V)], f.Good m' := by
    simpa using Held.Good.of_represents hrep hs hsized
  simpa using h.exchange he hfoot hgood (List.pairwise_singleton _ _) hroom

theorem length_lt (h : Inv room s held) (he : held[i]? = some e) : e.cells.length < sizeMod :=
  ((h.front he).length_le.trans h.owned.room).trans_lt room.lt

theorem cells_ne_nil (h : Inv room s held) (he : held[i]? = some e) (hroot : e.list.mRoot ≠ none) :
    e.cells ≠ [] := by
  intro hnil
  have hlinked := ((h.front he).good e List.mem_cons_self).linked
  rw [hnil] at hlinked
  exact hroot hlinked

/-! ## What a call does -/

theorem set (h : Inv room s held) (he : held[i]? = some e) (hroom : s.heap.live < room.nodes)
    (key : K) (val : V) :
    ∃ m' e', Returns (fun fuel => s.call room fuel (.set i key val))
        (⟨m', s.objects.set i e'.list⟩, .set) ∧
      Inv room ⟨m', s.objects.set i e'.list⟩ (held.set i e') ∧
      e'.pairs = upsert key val e.pairs := by
  have hfront := h.front he
  have hgood := hfront.good e List.mem_cons_self
  obtain ⟨m', l', cells', hrun, hrep, hx⟩ := set_refines hgood.represents hroom key val
  have hnodes := LeafList.set_nodes ⟨e.pairs, e.list.mSize⟩ key val hgood.sorted
  have hlen : e.pairs.length = e.cells.length := length_items _
  have hle := hfront.length_le
  have hlt := room.lt
  have hpairs : items cells' = upsert key val e.pairs := hrep.nodes.symm.trans hnodes
  refine ⟨m', ⟨l', cells'⟩, ?_, h.replace he hrep hx ?_ ?_ ?_, hpairs⟩
  · obtain ⟨bound, hrun⟩ := hrun
    refine ⟨bound, ?_⟩
    intro fuel hfuel
    simp only [Lists.call, h.object_eq he, Outcome.ok_bind, hrun fuel hfuel]
  · rw [hnodes]
    exact sorted_upsert hgood.sorted key val
  · refine LeafList.set_sized key val (hgood.sized.trans hlen.symm) ?_
    rw [hlen]
    omega
  · have hmore := length_upsert_le key val e.pairs
    have hlive := hx.live
    rw [← hpairs, length_items] at hmore
    rw [length_addresses, length_addresses] at hlive
    omega

/-- `delete_key` on a list that is not empty. -/
theorem deleteKey (h : Inv room s held) (he : held[i]? = some e) (hne : e.cells ≠ []) (key : K) :
    ∃ m' e', Returns (fun fuel => s.call room fuel (.deleteKey i key))
        (⟨m', s.objects.set i e'.list⟩, .deleteKey (e.pairs.lookup key).isSome) ∧
      Inv room ⟨m', s.objects.set i e'.list⟩ (held.set i e') ∧ e'.pairs = remove key e.pairs ∧
      ((e.pairs.lookup key).isSome = false → m' = s.heap ∧ e'.list = e.list) := by
  have hgood := (h.front he).good e List.mem_cons_self
  have hlen : e.pairs.length = e.cells.length := length_items _
  have hsized : LeafList.Sized ⟨e.pairs, e.list.mSize⟩ := hgood.sized.trans hlen.symm
  obtain ⟨y, hdelete, hnodes, hysized⟩ := LeafList.deleteKey_eq key hgood.sorted hsized
    (hlen ▸ h.length_lt he) (fun hnil => hne (List.map_eq_nil_iff.mp hnil))
  obtain ⟨m', l', cells', hrun, hrep, hx, habsent⟩ := deleteKey_refines hgood.represents hdelete
  have hpairs : items cells' = remove key e.pairs := hrep.nodes.symm.trans hnodes
  refine ⟨m', ⟨l', cells'⟩, ?_, h.replace he hrep hx ?_ hysized ?_, hpairs, ?_⟩
  · obtain ⟨bound, hrun⟩ := hrun
    refine ⟨bound, ?_⟩
    intro fuel hfuel
    simp only [Lists.call, h.object_eq he, Outcome.ok_bind, hrun fuel hfuel]
  · rw [hnodes]
    exact sorted_remove hgood.sorted key
  · have hless : (remove key e.pairs).length ≤ e.pairs.length := List.length_filter_le _ _
    have hlive := hx.live
    have hroom := h.owned.room
    rw [← hpairs, length_items, hlen] at hless
    rw [length_addresses, length_addresses] at hlive
    omega
  · intro hnone
    obtain ⟨rfl, hroot⟩ := habsent hnone
    have hsame : y.nodes = e.pairs := hnodes.trans (remove_of_absent (by simpa using hnone))
    have hsize : l'.mSize = e.list.mSize := by
      rw [← hrep.mSize, hysized, hsame, hlen, hgood.sized]
    exact ⟨rfl, congrArg₂ LeafListObject.mk hroot hsize⟩

/-- `split` on a list of at least two pairs. -/
theorem split (h : Inv room s held) (he : held[i]? = some e) (hlen : 2 ≤ e.cells.length)
    (stale : Nat) :
    ∃ m' e' f, Returns (fun fuel => s.call room fuel (.split i stale))
        (⟨m', s.objects.set i e'.list ++ [f.list]⟩, .split true f.list) ∧
      Inv room ⟨m', s.objects.set i e'.list ++ [f.list]⟩ (held.set i e' ++ [f]) ∧
      e.pairs = e'.pairs ++ f.pairs ∧ e'.pairs ≠ [] ∧ f.pairs ≠ [] := by
  have hgood := (h.front he).good e List.mem_cons_self
  have hlength : e.pairs.length = e.cells.length := length_items _
  have hsized : LeafList.Sized ⟨e.pairs, e.list.mSize⟩ := hgood.sized.trans hlength.symm
  obtain ⟨left, right, happ, hleft, hright, -, hsplit⟩ :=
    LeafList.split_eq hsized (hlen.trans hlength.ge)
  obtain ⟨m', l', dest', cells₁, cells₂, hrun, hrep₁, hrep₂, hcells, hx⟩ :=
    split_refines hgood.represents hsplit ⟨none, stale⟩
  have hsorted : Sorted (left ++ right) := happ ▸ hgood.sorted
  obtain ⟨hsorted₁, hsorted₂, -⟩ := sorted_append.mp hsorted
  have hnodup := hgood.linked.nodup
  rw [hcells, addresses_append, List.nodup_append] at hnodup
  have hfoot : Exchange s.heap m' e.foot
      ([(⟨l', cells₁⟩ : Held K V), ⟨dest', cells₂⟩].flatMap Held.foot) := by
    simpa [Held.foot, ← addresses_append, ← hcells] using hx
  have hboth : ∀ f ∈ [(⟨l', cells₁⟩ : Held K V), ⟨dest', cells₂⟩], f.Good m' := by
    intro f hf
    rcases List.mem_pair.mp hf with rfl | rfl
    · exact .of_represents hrep₁ hsorted₁ rfl
    · exact .of_represents hrep₂ hsorted₂ rfl
  have happart : [(⟨l', cells₁⟩ : Held K V), ⟨dest', cells₂⟩].Pairwise Held.Apart :=
    List.pairwise_pair.mpr fun a ha hin => hnodup.2.2 a ha a hin rfl
  have hlive : m'.live ≤ room.nodes := by
    have hlive := hx.live
    have hroom := h.owned.room
    omega
  refine ⟨m', ⟨l', cells₁⟩, ⟨dest', cells₂⟩, ⟨0, ?_⟩, h.exchange he hfoot hboth happart hlive,
    ?_, ?_, ?_⟩
  · intro fuel _
    simp only [Lists.call, h.object_eq he, Outcome.ok_bind, hrun, if_true]
  · show items e.cells = items cells₁ ++ items cells₂
    rw [hcells, items_append]
  · exact fun hnil => hleft (hrep₁.nodes.trans hnil)
  · exact fun hnil => hright (hrep₂.nodes.trans hnil)

/-- `split` on a list of less than two pairs. -/
theorem split_small (h : Inv room s held) (he : held[i]? = some e) (hlen : e.cells.length < 2)
    (stale fuel : Nat) :
    s.call room fuel (.split i stale) = .ok (s, .split false ⟨none, stale⟩) := by
  have hgood := (h.front he).good e List.mem_cons_self
  have hhalf : e.list.mSize / 2 = 0 := by
    rw [hgood.sized]
    omega
  have hnone : LeafList.split ⟨e.pairs, e.list.mSize⟩ = .ok none := if_pos hhalf
  have hsame : s.objects.set i e.list = s.objects := by
    obtain ⟨hi, rfl⟩ := List.getElem?_eq_some_iff.mp he
    rw [h.objects, ← List.map_set, List.set_getElem_self]
  simp only [Lists.call, h.object_eq he, Outcome.ok_bind, split_false hgood.represents hnone,
    hsame]
  rfl

/-! ## What the callers see -/

theorem contents (h : Inv room s held) : Contents s (held.map Held.pairs) := by
  rw [Contents, h.objects, List.forall₂_map_left_iff, List.forall₂_map_right_iff,
    List.forall₂_same]
  intro e he
  exact ⟨e.cells, (h.owned.good e he).linked, rfl⟩

theorem finds_iff (h : Inv room s held) {key : K} {v : Option V} :
    Finds s i key v ↔ ∃ e, held[i]? = some e ∧ v = e.pairs.lookup key := by
  constructor
  · rintro ⟨l, node, hl, hrun, hval⟩
    obtain ⟨e, he, rfl⟩ := h.exists_held hl
    have hgood := (h.front he).good e List.mem_cons_self
    obtain ⟨node', hrun', hval'⟩ := getValPtr_returns key hgood.linked
    obtain rfl := hrun.unique hrun'
    exact ⟨e, he, Outcome.ok.inj (hval.symm.trans hval')⟩
  · rintro ⟨e, he, rfl⟩
    have hgood := (h.front he).good e List.mem_cons_self
    obtain ⟨node, hrun, hval⟩ := getValPtr_returns key hgood.linked
    refine ⟨e.list, node, ?_, hrun, hval⟩
    rw [h.objects, List.getElem?_map, he]
    rfl

end Inv

/-! ## Runs -/

/-- A `set` needs room for a node, and `delete_key` a list that is not empty. -/
def Allowed (room : Room) (s : Lists K V) : ListCall K V → Prop
  | .set i _ _ => i < s.objects.length ∧ s.heap.live < room.nodes
  | .deleteKey i _ => ∃ l, s.objects[i]? = some l ∧ l.mRoot ≠ none
  | .split i _ => i < s.objects.length

theorem call_faults {room : Room} {s : Lists K V} {c : ListCall K V} (h : ¬ Allowed room s c) :
    ∃ e, Faults (fun fuel => s.call room fuel c) e := by
  have hconst (e : NodeFault) (hcall : ∀ fuel, s.call room fuel c = .fault e) :
      ∃ e, Faults (fun fuel => s.call room fuel c) e := ⟨e, 0, fun fuel _ => hcall fuel⟩
  have hmissing {i : Nat} (hi : ¬ i < s.objects.length) :
      s.object i = .fault (.memory .freedPointer) := by
    rw [Lists.object, List.getElem?_eq_none (Nat.le_of_not_lt hi)]
  have hthere {i : Nat} (hi : i < s.objects.length) : s.object i = .ok s.objects[i] := by
    rw [Lists.object, List.getElem?_eq_getElem hi]
  cases c with
  | set i key val =>
    by_cases hi : i < s.objects.length
    · have hroom : ¬ s.heap.live < room.nodes := fun hlt => h ⟨hi, hlt⟩
      refine hconst .badAlloc fun fuel => ?_
      simp only [Lists.call, hthere hi, Outcome.ok_bind, set_badAlloc hroom, Outcome.fault_bind]
    · refine hconst (.memory .freedPointer) fun fuel => ?_
      simp only [Lists.call, hmissing hi, Outcome.fault_bind]
  | deleteKey i key =>
    by_cases hi : i < s.objects.length
    · have hroot : s.objects[i].mRoot = none := by
        by_contra hroot
        exact h ⟨_, List.getElem?_eq_getElem hi, hroot⟩
      refine hconst (.memory .nullPointer) fun fuel => ?_
      simp only [Lists.call, hthere hi, Outcome.ok_bind, deleteKey_nullPointer hroot,
        Outcome.fault_bind]
    · refine hconst (.memory .freedPointer) fun fuel => ?_
      simp only [Lists.call, hmissing hi, Outcome.fault_bind]
  | split i stale =>
    refine hconst (.memory .freedPointer) fun fuel => ?_
    simp only [Lists.call, hmissing h, Outcome.fault_bind]

namespace Inv

variable {room : Room} {s s' : Lists K V} {held : List (Held K V)}

theorem call (h : Inv room s held) {c : ListCall K V} (hallowed : Allowed room s c) :
    ∃ r held', Returns (fun fuel => s.call room fuel c) r ∧ Inv room r.1 held' := by
  cases c with
  | set i key val =>
    obtain ⟨e, he, -⟩ := h.exists_held (List.getElem?_eq_getElem hallowed.1)
    obtain ⟨m', e', hrun, hinv, -⟩ := h.set he hallowed.2 key val
    exact ⟨_, _, hrun, hinv⟩
  | deleteKey i key =>
    obtain ⟨l, hl, hroot⟩ := hallowed
    obtain ⟨e, he, rfl⟩ := h.exists_held hl
    obtain ⟨m', e', hrun, hinv, -⟩ := h.deleteKey he (h.cells_ne_nil he hroot) key
    exact ⟨_, _, hrun, hinv⟩
  | split i stale =>
    obtain ⟨e, he, -⟩ := h.exists_held (List.getElem?_eq_getElem hallowed)
    by_cases hlen : 2 ≤ e.cells.length
    · obtain ⟨m', e', f, hrun, hinv, -⟩ := h.split he hlen stale
      exact ⟨_, _, hrun, hinv⟩
    · exact ⟨_, held, ⟨0, fun fuel _ => h.split_small he (Nat.lt_of_not_le hlen) stale fuel⟩, h⟩

theorem calls (h : Inv room s held) {cs : List (ListCall K V)}
    (hrun : Returns (fun fuel => Lists.calls room fuel cs s) s') : ∃ held', Inv room s' held' := by
  induction cs generalizing s held with
  | nil =>
    obtain rfl := (Returns.const rfl).unique hrun
    exact ⟨held, h⟩
  | cons c cs ih =>
    by_cases hallowed : Allowed room s c
    · obtain ⟨r, held', hcall, hinv⟩ := h.call hallowed
      exact ih hinv (hcall.bind_inv hrun)
    · obtain ⟨e, hfault⟩ := call_faults hallowed
      exact absurd hrun ((hfault.bind _).not_returns s')

/-- The calls that return are the ones that are allowed. -/
theorem returns_iff (h : Inv room s held) (c : ListCall K V) :
    (∃ r, Returns (fun fuel => s.call room fuel c) r) ↔ Allowed room s c := by
  constructor
  · rintro ⟨r, hrun⟩
    by_contra hnot
    obtain ⟨e, hfault⟩ := call_faults hnot
    exact hfault.not_returns r hrun
  · intro hallowed
    obtain ⟨r, -, hrun, -⟩ := h.call hallowed
    exact ⟨r, hrun⟩

end Inv

/-! ## The lists after a run -/

/-- The lookup of one key in one list has changed. -/
structure SetsOnly (s : Lists K V) (i : Nat) (key : K) (val : V) (s' : Lists K V) : Prop where
  own : Finds s' i key (some val)
  others : ∀ j k v, (j, k) ≠ (i, key) → (Finds s' j k v ↔ Finds s j k v)

/-- The pair of one key has gone from one list, if it was there. -/
structure DeletesOnly (s : Lists K V) (i : Nat) (key : K) (returned : Bool) (s' : Lists K V) :
    Prop where
  present : returned = true ↔ ∃ v, Finds s i key (some v)
  pairs : ∃ contents pairs, Contents s contents ∧ contents[i]? = some pairs ∧
    Contents s' (contents.set i (pairs.filter fun p => p.1 ≠ key))
  absent : returned = false → s' = s

/-- One list is cut in two, and `dest` is the second half, or nothing has changed. -/
structure SplitsInTwo (s : Lists K V) (i stale : Nat) (returned : Bool) (dest : LeafListObject)
    (s' : Lists K V) : Prop where
  cut : returned = true → ∃ contents left right, Contents s contents ∧
    contents[i]? = some (left ++ right) ∧ left ≠ [] ∧ right ≠ [] ∧
    Contents s' (contents.set i left ++ [right]) ∧ s'.objects.getLast? = some dest
  unchanged : returned = false → s' = s ∧ dest = ⟨none, stale⟩

/-- What the tree relies on. -/
structure Reliable (room : Room) (s : Lists K V) : Prop where
  ordered : ∀ l ∈ s.objects, ∃ pairs, Holds s.heap l pairs ∧ Sorted pairs ∧ size l = pairs.length
  returns : ∀ c, (∃ r, Returns (fun fuel => s.call room fuel c) r) ↔ Allowed room s c
  set : ∀ i key val r, Returns (fun fuel => s.call room fuel (.set i key val)) r →
    r.2 = .set ∧ SetsOnly s i key val r.1
  deleteKey : ∀ i key r, Returns (fun fuel => s.call room fuel (.deleteKey i key)) r →
    ∃ b, r.2 = .deleteKey b ∧ DeletesOnly s i key b r.1
  split : ∀ i stale r, Returns (fun fuel => s.call room fuel (.split i stale)) r →
    ∃ b dest, r.2 = .split b dest ∧ SplitsInTwo s i stale b dest r.1

namespace Inv

variable {room : Room} {s : Lists K V} {held : List (Held K V)} {r : Lists K V × ListAnswer}
  {i : Nat}

theorem setsOnly (h : Inv room s held) {key : K} {val : V}
    (hrun : Returns (fun fuel => s.call room fuel (.set i key val)) r) :
    r.2 = .set ∧ SetsOnly s i key val r.1 := by
  obtain ⟨hi, hroom⟩ := (h.returns_iff _).mp ⟨r, hrun⟩
  obtain ⟨e, he, -⟩ := h.exists_held (List.getElem?_eq_getElem hi)
  obtain ⟨m', e', hrun', hinv, hpairs⟩ := h.set he hroom key val
  obtain rfl := hrun.unique hrun'
  have hlt : i < held.length := (List.getElem?_eq_some_iff.mp he).1
  refine ⟨rfl, ?_, ?_⟩
  · refine hinv.finds_iff.mpr ⟨e', List.getElem?_set_self hlt, ?_⟩
    rw [hpairs, lookup_upsert, if_pos rfl]
  · intro j k v hne
    rw [hinv.finds_iff, h.finds_iff]
    by_cases hj : i = j
    · subst hj
      have hk : k ≠ key := fun hk => hne (by rw [hk])
      rw [List.getElem?_set_self hlt, he]
      simp only [Option.some.injEq, exists_eq_left', hpairs, lookup_upsert, if_neg hk]
    · rw [List.getElem?_set_ne hj]

theorem deletesOnly (h : Inv room s held) {key : K}
    (hrun : Returns (fun fuel => s.call room fuel (.deleteKey i key)) r) :
    ∃ b, r.2 = .deleteKey b ∧ DeletesOnly s i key b r.1 := by
  obtain ⟨l, hl, hroot⟩ := (h.returns_iff _).mp ⟨r, hrun⟩
  obtain ⟨e, he, rfl⟩ := h.exists_held hl
  obtain ⟨m', e', hrun', hinv, hpairs, habsent⟩ := h.deleteKey he (h.cells_ne_nil he hroot) key
  obtain rfl := hrun.unique hrun'
  refine ⟨_, rfl, ?_, ⟨held.map Held.pairs, e.pairs, h.contents, ?_, ?_⟩, ?_⟩
  · rw [Option.isSome_iff_exists]
    refine exists_congr fun v => ?_
    rw [h.finds_iff, he]
    simp only [Option.some.injEq, exists_eq_left', eq_comm]
  · rw [List.getElem?_map, he]
    rfl
  · have hcontents := hinv.contents
    rw [List.map_set, hpairs] at hcontents
    exact hcontents
  · intro hnone
    obtain ⟨rfl, hlist⟩ := habsent hnone
    rw [hlist, ← (List.getElem?_eq_some_iff.mp hl).2, List.set_getElem_self]

theorem splitsInTwo (h : Inv room s held) {stale : Nat}
    (hrun : Returns (fun fuel => s.call room fuel (.split i stale)) r) :
    ∃ b dest, r.2 = .split b dest ∧ SplitsInTwo s i stale b dest r.1 := by
  obtain ⟨e, he, -⟩ := h.exists_held (List.getElem?_eq_getElem ((h.returns_iff _).mp ⟨r, hrun⟩))
  by_cases hlen : 2 ≤ e.cells.length
  · obtain ⟨m', e', f, hrun', hinv, hcut, hleft, hright⟩ := h.split he hlen stale
    obtain rfl := hrun.unique hrun'
    refine ⟨true, f.list, rfl, fun _ => ?_, nofun⟩
    have hcontents := hinv.contents
    rw [List.map_append, List.map_set] at hcontents
    refine ⟨held.map Held.pairs, e'.pairs, f.pairs, h.contents, ?_, hleft, hright, hcontents,
      List.getLast?_concat⟩
    rw [List.getElem?_map, he, ← hcut]
    rfl
  · have hsmall := h.split_small he (Nat.lt_of_not_le hlen) stale
    obtain rfl := hrun.unique ⟨0, fun fuel _ => hsmall fuel⟩
    exact ⟨false, _, rfl, nofun, fun _ => ⟨rfl, rfl⟩⟩

theorem reliable (h : Inv room s held) : Reliable room s := by
  refine ⟨?_, h.returns_iff, fun _ _ _ _ => h.setsOnly, fun _ _ _ => h.deletesOnly,
    fun _ _ _ => h.splitsInTwo⟩
  intro l hl
  rw [h.objects] at hl
  obtain ⟨e, he, rfl⟩ := List.mem_map.mp hl
  obtain ⟨hlinked, hsorted, hsized⟩ := h.owned.good e he
  exact ⟨e.pairs, ⟨e.cells, hlinked, rfl⟩, hsorted, hsized.trans (length_items _).symm⟩

end Inv

/-- Whatever was called on the lists since there was one empty list whose counter was 0: the tree
can rely on them. -/
theorem calls_reliable (room : Room) {cs : List (ListCall K V)} {s : Lists K V}
    (hrun : Returns (fun fuel => Lists.calls room fuel cs .start) s) : Reliable room s := by
  obtain ⟨held, hinv⟩ := (Inv.start room).calls hrun
  exact hinv.reliable

/-- Two lists of one node each, split from a list that has lost a node. -/
theorem calls_reliable_split :
    Reliable ⟨8, by decide⟩ (⟨⟨[none, some ⟨(1, 10), none⟩, some ⟨(2, 21), none⟩, none]⟩,
      [⟨some 1, 1⟩, ⟨some 2, 1⟩]⟩ : Lists Nat Nat) :=
  @calls_reliable Nat Nat _ ⟨8, by decide⟩
    [.set 0 3 30, .set 0 1 10, .set 0 2 20, .set 0 2 21, .deleteKey 0 3, .split 0 7] _ ⟨4, by
      intro fuel hfuel
      obtain ⟨k, rfl⟩ := Nat.exists_eq_add_of_le' hfuel
      rfl⟩

end StateDb.Bpt.LeafNodes
