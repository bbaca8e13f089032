/-
  StateDb/BptDelete.lean
  ======================
  **`delete_key`, where it works.**

  Two things go wrong in the source.  `leaf_list::delete_key` reads the first pair
  of its list without looking whether there is one, and the `m_lesser` leaf of a
  new root is empty.  And `delete_child` does not decrement `m_size`, is handed
  the deleted key for the separator, and goes round without a step when the next
  list node has another key.  A call of `delete_key` is `SafeDelete` when it comes
  to neither: its leaf holds a pair, and is left with one unless it is the
  `m_lesser` of its node.  Then it removes the key and nothing else
  (`Tree.deleteKey_spec`), and a run of such calls and of `set` calls is a run of
  a finite map (`safe_run_map_law`).
-/
import StateDb.BptMap

namespace StateDb.Bpt

open Lib Lib.SortedAssoc

variable {K V : Type} [LinearOrder K] {cfg : Config} {Q : LeafPolicy K V}

/-! ## Calls -/

inductive Call (K V : Type) where
  | set (key : K) (val : V)
  | delete (key : K)
deriving DecidableEq, Repr

def Tree.call (cfg : Config) (fuel : Nat) (t : Tree K V) : Call K V → Outcome Fault (Tree K V)
  | .set key val => t.set cfg fuel key val
  | .delete key => do
      let r ← t.deleteKey fuel key
      .ok r.1

def Tree.calls (cfg : Config) (fuel : Nat) : List (Call K V) → Tree K V → Outcome Fault (Tree K V)
  | [], t => .ok t
  | c :: cs, t => do
      let t' ← t.call cfg fuel c
      Tree.calls cfg fuel cs t'

/-- What a finite map does. -/
def Call.apply (entries : List (K × V)) : Call K V → List (K × V)
  | .set key val => upsert key val entries
  | .delete key => remove key entries

/-- The value last set for a key since it was last deleted. -/
def lastValue (calls : List (Call K V)) (key : K) : Option V :=
  calls.foldl (fun found c =>
    match c with
    | .set k v => if key = k then some v else found
    | .delete k => if key = k then none else found) none

theorem lookup_apply (calls : List (Call K V)) (key : K) :
    (calls.foldl Call.apply []).lookup key = lastValue calls key := by
  suffices h : ∀ entries : List (K × V), (calls.foldl Call.apply entries).lookup key =
      calls.foldl (fun found c =>
        match c with
        | .set k v => if key = k then some v else found
        | .delete k => if key = k then none else found) (entries.lookup key) from h []
  induction calls with
  | nil => exact fun entries => rfl
  | cons c cs ih =>
    intro entries
    rw [List.foldl_cons, List.foldl_cons, ih]
    cases c with
    | set k v => simp only [Call.apply, lookup_upsert]
    | delete k => simp only [Call.apply, lookup_remove]

/-! ## Calls that are safe -/

/-- The leaf that `delete_key` of an internal node comes to, and the node above it. -/
def findLeaf : Nat → Heap K V → Nat → K → Outcome Fault (Nat × Nat)
  | 0, _, _, _ => .outOfFuel
  | fuel + 1, h, this, key => do
      let child ← getChildGe fuel h this key
      let leaf ← isLeaf h child
      match leaf with
      | true => .ok (this, child)
      | false => findLeaf fuel h child key

/-- Below `this`, the leaf of `key` holds a pair, and does not lose its only pair
unless it is the `m_lesser` of its node. -/
def SafeBelow (h : Heap K V) (this : Nat) (key : K) : Prop :=
  ∃ parent leaf n l, Returns (fun fuel => findLeaf fuel h this key) (parent, leaf) ∧
    derefInternal h parent = .ok n ∧ derefLeaf h leaf = .ok l ∧ l.mList.nodes ≠ [] ∧
    (l.mList.nodes.map Prod.fst = [key] → n.mLesser = leaf)

def SafeDelete (t : Tree K V) (key : K) : Prop :=
  ∀ root, t.mRoot = some root → SafeBelow t.heap root key

/-- Every `delete_key` call of the run is safe in the tree it is made on. -/
def SafeCalls (cfg : Config) : List (Call K V) → Tree K V → Prop
  | [], _ => True
  | c :: cs, t => (∀ key, c = .delete key → SafeDelete t key) ∧
      ∀ t', Returns (fun fuel => t.call cfg fuel c) t' → SafeCalls cfg cs t'

theorem SafeCalls.of_append {pre post : List (Call K V)} {t : Tree K V}
    (h : SafeCalls cfg (pre ++ post) t) : SafeCalls cfg pre t := by
  induction pre generalizing t with
  | nil => trivial
  | cons c cs ih => exact ⟨h.1, fun t' ht' => ih (h.2 t' ht')⟩

/-! ## One safe call -/

theorem Hole.entries_remove {h : Heap K V} {d : Nat} {lo : WithBot K} {hi : WithTop K}
    {lesser : Nat} {pre post : List (Sep K)} {before after : List (Span K V)} {t : Span K V}
    (hh : Hole (Rep cfg Q h d) lo hi lesser pre post before t after) {key : K} (p : Nat)
    (seps : List (Sep K)) (t' : Span K V)
    (hpre : ∀ e ∈ pre, e.key ≤ key) (hpost : ∀ e ∈ post, key < e.key)
    (ht : t'.entries = remove key t.entries) :
    (internalSpan p seps (before ++ t' :: after)).entries =
      remove key (internalSpan p seps (before ++ t :: after)).entries := by
  simp only [internalSpan, List.flatMap_append, List.flatMap_cons, remove_append, ht]
  rw [remove_eq_self fun q hq => (hh.before_lt hpre q hq).ne,
    remove_eq_self fun q hq => (hh.lt_after hpost q hq).ne']

/-- `delete_key` on a leaf that holds a pair. -/
theorem leafDelete_spec {cap : Nat} {h : Heap K V} {lo : WithBot K} {hi : WithTop K} {p : Nat}
    {l : Leaf K V} (hl : IsLeaf cap LeafPolicy.any h lo hi p l) (hcap : cap < sizeMod) (key : K)
    (hne : l.mList.nodes ≠ []) :
    ∃ l' : Leaf K V, Returns (fun fuel => baseDeleteKey fuel h p key)
        (h.write p (.leaf l'), (l.mList.nodes.lookup key).isSome) ∧
      l'.mList.nodes = remove key l.mList.nodes ∧
      IsLeaf cap LeafPolicy.any (h.write p (.leaf l')) lo hi p l' ∧
      Replaces h (h.write p (.leaf l')) (leafSpan p l) (leafSpan p l') := by
  obtain ⟨list, hrun, hnodes, hsized⟩ := LeafList.deleteKey_eq key hl.sorted hl.sized
    (Nat.lt_of_le_of_lt hl.capacity hcap) hne
  have hsub : ∀ q ∈ list.nodes, q ∈ l.mList.nodes := fun q hq => mem_of_mem_remove (hnodes ▸ hq)
  refine ⟨{ l with mList := list }, Returns.of_succ ⟨0, fun fuel _ => ?_⟩, hnodes,
    ⟨CellStore.read_write_self hl.cell, hnodes ▸ sorted_remove hl.sorted key, hsized, ?_,
      fun q hq => hl.above q (hsub q hq), fun q hq => hl.below q (hsub q hq), trivial⟩,
    replaces_writeLeaf hl.cell rfl⟩
  · simp [baseDeleteKey, isLeaf_of_leaf hl.cell, derefLeaf_eq hl.cell, hrun]
  · show list.nodes.length ≤ cap
    rw [hnodes]
    exact (List.length_filter_le _ _).trans hl.capacity

/-- The leaf loses its last pair exactly when that pair is of the deleted key. -/
theorem map_fst_eq_of_remove {l : List (K × V)} {key : K} (hs : Sorted l) (hne : l ≠ [])
    (h : (remove key l).length = 0) : l.map Prod.fst = [key] := by
  cases l with
  | nil => exact absurd rfl hne
  | cons p rest =>
    have hnil : remove key (p :: rest) = [] := List.length_eq_zero_iff.mp h
    by_cases hp : p.1 = key
    · subst hp
      rw [remove_cons_self hs] at hnil
      simp [hnil]
    · rw [remove_cons_of_ne rest hp] at hnil
      cases hnil

/-- `delete_key` of an internal node whose child is not emptied, or is `m_lesser`. -/
theorem baseDeleteKey_internal {h h₁ : Heap K V} {p child : Nat} {n : Internal} {key : K} {b : Bool}
    (hcell : h.read p = some (.internal n))
    (hchild : Returns (fun fuel => getChildGe fuel h p key) child)
    (hdel : Returns (fun fuel => baseDeleteKey fuel h child key) (h₁, b))
    (hcell₁ : h₁.read p = some (.internal n)) (size : Nat) (hsize : baseSize h₁ child = .ok size)
    (hlesser : b = true → size = 0 → n.mLesser = child) :
    ∃ b', Returns (fun fuel => baseDeleteKey fuel h p key) (h₁, b') := by
  refine ⟨b && decide (size ≠ 0), Returns.of_succ ?_⟩
  simp only [baseDeleteKey, isLeaf_of_internal hcell, Outcome.ok_bind]
  refine Returns.bind hchild (Returns.bind hdel ⟨0, ?_⟩)
  intro fuel _
  cases b with
  | false => rfl
  | true =>
    simp only [if_true, hsize, Outcome.ok_bind]
    by_cases hzero : size = 0
    · simp [hzero, derefInternal_eq hcell₁, hlesser rfl hzero]
    · simp [hzero]

theorem internalDelete_spec (hcfg : cfg.Admissible) {h : Heap K V} {d : Nat} {lo : WithBot K}
    {hi : WithTop K} {p : Nat} {s : Span K V}
    (hr : HasInternal cfg.maxSize h (Rep cfg LeafPolicy.any h d) lo hi p s) (hnd : s.foot.Nodup)
    (key : K) (hlo : lo ≤ key) (hhi : (key : WithTop K) < hi) (hsafe : SafeBelow h p key) :
    ∃ h' b s', Returns (fun fuel => baseDeleteKey fuel h p key) (h', b) ∧
      HasInternal cfg.maxSize h' (Rep cfg LeafPolicy.any h' d) lo hi p s' ∧
      Replaces h h' s s' ∧ s'.entries = remove key s.entries := by
  have h3 := hcfg.three_le
  have hlt := hcfg.lt_size
  have hmax : cfg.maxSize = cfg.order - 1 := rfl
  induction d generalizing lo hi p s with
  | zero => exact absurd hr HasInternal.not_zero
  | succ d ih =>
    obtain ⟨n, seps, tail, spans, hn, rfl⟩ := hr
    obtain ⟨pre, post, before, t, after, rfl, rfl, hroute⟩ := hn.exists_route hlo hhi
    have hs := (Rep.stable cfg _ (d + 1)).owns hn hnd
    obtain ⟨parent, leaf, np, lp, hfind, hparent, hleaf, hnonempty, honly⟩ := hsafe
    have hfind' := Returns.bind_inv hroute.child hfind.succ
    rcases hroute.hole.child with hv | ⟨l, hl, rfl⟩ | hc
    · exact (hv.elim hroute.low hroute.high).elim
    · -- the child is the leaf
      have hhere : Returns (fun fuel => findLeaf fuel h p key) (p, lastChild n.mLesser pre) := by
        refine Returns.of_succ (Returns.bind hroute.child ⟨0, ?_⟩)
        intro fuel _
        simp [isLeaf_of_leaf hl.cell]
      obtain ⟨rfl, rfl⟩ := Prod.mk.inj (hfind.unique hhere)
      obtain rfl : np = n := by simpa [derefInternal_eq hn.cell] using hparent.symm
      obtain rfl : lp = l := by simpa [derefLeaf_eq hl.cell] using hleaf.symm
      obtain ⟨l', hrun, hnodes, hl', hrepl⟩ := leafDelete_spec hl (by omega) key hnonempty
      obtain ⟨hn', hr'⟩ := hn.childWhole (Rep.stable cfg _ (d + 1)) hs hroute.hole hrepl
        (Or.inr (Or.inl ⟨l', hl', rfl⟩))
      have hent := hroute.hole.entries_remove parent (pre ++ post)
        (leafSpan (lastChild np.mLesser pre) l') hroute.before hroute.after hnodes
      have hsize : l'.mList.size = (remove key lp.mList.nodes).length := hnodes ▸ hl'.sized
      obtain ⟨b, hrun'⟩ := baseDeleteKey_internal hn.cell hroute.child hrun hn'.cell
        l'.mList.size (by simp [baseSize, hl'.cell]) fun _ hzero =>
          honly (map_fst_eq_of_remove hl.sorted hnonempty (hsize ▸ hzero))
      exact ⟨_, b, _, hrun', ⟨_, _, _, _, hn', rfl⟩, hr', hent⟩
    · -- the leaf is below the child
      have hnotLeaf : isLeaf h (lastChild n.mLesser pre) = .ok false := by
        obtain ⟨n₁, seps₁, tail₁, spans₁, hn₁, -⟩ := hc
        exact isLeaf_of_internal hn₁.cell
      have hbelow : SafeBelow h (lastChild n.mLesser pre) key := by
        refine ⟨parent, leaf, np, lp, hfind'.congr ?_, hparent, hleaf, hnonempty, honly⟩
        intro fuel
        simp [hnotLeaf]
      obtain ⟨h₁, b, t', hrun, hc', hrepl, hent⟩ :=
        ih hc hs.child_nodup hroute.low hroute.high hbelow
      obtain ⟨hn', hr'⟩ := hn.childWhole (Rep.stable cfg _ (d + 1)) hs hroute.hole hrepl
        (Or.inr (Or.inr hc'))
      obtain ⟨n₁, seps₁, tail₁, spans₁, hn₁, -⟩ := hc'
      obtain ⟨b', hrun'⟩ := baseDeleteKey_internal hn.cell hroute.child hrun hn'.cell
        n₁.mSize (by simp [baseSize, hn₁.cell]) fun _ hzero => absurd hzero hn₁.size_ne_zero
      exact ⟨h₁, b', _, hrun', ⟨_, _, _, _, hn', rfl⟩, hr',
        hroute.hole.entries_remove _ _ _ hroute.before hroute.after hent⟩

theorem Tree.deleteKey_spec (hcfg : cfg.Admissible) {t : Tree K V} {entries : List (K × V)}
    (ht : IsTree cfg LeafPolicy.any t entries) {key : K} (hsafe : SafeDelete t key) :
    ∃ t' b, Returns (fun fuel => t.deleteKey fuel key) (t', b) ∧
      IsTree cfg LeafPolicy.any t' (remove key entries) := by
  rcases ht with ⟨hroot, rfl⟩ | ⟨root, d, s, hroot, hr⟩
  · exact ⟨t, false, ⟨0, fun fuel _ => by simp only [Tree.deleteKey, hroot]⟩, Or.inl ⟨hroot, rfl⟩⟩
  · obtain ⟨h', b, s', hrun, hnode, hrepl, hent⟩ := internalDelete_spec hcfg hr.node hr.nodup
      key bot_le (WithTop.coe_lt_top key) (hsafe root hroot)
    rw [hr.entries] at hent
    refine ⟨⟨h', some root⟩, b, ?_, Or.inr ⟨root, d, s', rfl, hnode, hrepl.owns.nodup,
      hrepl.chain none hr.chain, hent⟩⟩
    obtain ⟨n, seps, tail, spans, hn, -⟩ := hnode
    simp only [Tree.deleteKey, hroot]
    refine Returns.bind hrun ⟨0, ?_⟩
    intro fuel _
    simp [baseSize, hn.cell, hn.size_ne_zero]

/-! ## Runs -/

theorem Tree.call_spec (hcfg : cfg.Admissible) {t : Tree K V} {entries : List (K × V)}
    (ht : IsTree cfg LeafPolicy.any t entries) (c : Call K V)
    (hsafe : ∀ key, c = .delete key → SafeDelete t key) :
    ∃ t', Returns (fun fuel => t.call cfg fuel c) t' ∧
      IsTree cfg LeafPolicy.any t' (Call.apply entries c) := by
  cases c with
  | set key val => exact Tree.set_spec hcfg ht key val
  | delete key =>
    obtain ⟨t', b, hrun, ht'⟩ := Tree.deleteKey_spec hcfg ht (hsafe key rfl)
    exact ⟨t', Returns.bind hrun (Returns.const rfl), ht'⟩

theorem Tree.calls_spec (hcfg : cfg.Admissible) (cs : List (Call K V)) {t : Tree K V}
    {entries : List (K × V)} (ht : IsTree cfg LeafPolicy.any t entries)
    (hsafe : SafeCalls cfg cs t) :
    ∃ t', Returns (fun fuel => Tree.calls cfg fuel cs t) t' ∧
      IsTree cfg LeafPolicy.any t' (cs.foldl Call.apply entries) := by
  induction cs generalizing t entries with
  | nil => exact ⟨t, Returns.const rfl, ht⟩
  | cons c cs ih =>
    obtain ⟨hc, hrest⟩ := hsafe
    obtain ⟨t₁, hrun₁, ht₁⟩ := Tree.call_spec hcfg ht c hc
    obtain ⟨t₂, hrun₂, ht₂⟩ := ih ht₁ (hrest t₁ hrun₁)
    exact ⟨t₂, Returns.bind hrun₁ hrun₂, ht₂⟩

/-- The tree answers as the finite map of the calls: they all return, and `get`
finds the value last set for each key since its last deletion. -/
def AnswersAsMap (cfg : Config) (cs : List (Call K V)) : Prop :=
  ∃ t, Returns (fun fuel => Tree.calls cfg fuel cs {}) t ∧
    ∀ key, Returns (fun fuel => t.get fuel key) (lastValue cs key)

/-- In a run whose `delete_key` calls are safe the tree answers as a finite map
after every call. -/
theorem safe_run_map_law {cs : List (Call K V)} (hsafe : SafeCalls Order.six.config cs {})
    (pre post : List (Call K V)) (hcs : cs = pre ++ post) :
    AnswersAsMap Order.six.config pre := by
  subst hcs
  obtain ⟨t, hrun, ht⟩ := Tree.calls_spec Order.six.admissible pre isTree_empty hsafe.of_append
  refine ⟨t, hrun, ?_⟩
  intro key
  rw [← lookup_apply]
  exact Tree.get_spec ht key

theorem SafeCalls.cons {c : Call K V} {cs : List (Call K V)} {t t' : Tree K V}
    (hc : ∀ key, c = .delete key → SafeDelete t key)
    (hrun : Returns (fun fuel => t.call cfg fuel c) t') (h : SafeCalls cfg cs t') :
    SafeCalls cfg (c :: cs) t :=
  ⟨hc, fun _ hrun' => hrun.unique hrun' ▸ h⟩

/-- Two keys are set and the second is deleted from the leaf they share. -/
theorem safe_run_map_law_shared_leaf :
    AnswersAsMap Order.six.config ([.set 5 50, .set 7 70, .delete 7] : List (Call Nat Nat)) := by
  refine safe_run_map_law ?_ [.set 5 50, .set 7 70, .delete 7] [] rfl
  have hset₁ : Returns (fun fuel => Tree.call Order.six.config fuel {} (.set 5 50))
      (oneLeaf [(5, 50)]) := ⟨0, fun fuel _ => rfl⟩
  have hset₂ : Returns (fun fuel => Tree.call Order.six.config fuel (oneLeaf [(5, 50)]) (.set 7 70))
      (oneLeaf [(5, 50), (7, 70)]) := by
    refine ⟨2, ?_⟩
    intro fuel hfuel
    obtain ⟨k, rfl⟩ : ∃ k, fuel = k + 2 := ⟨fuel - 2, by omega⟩
    rfl
  have hfind : Returns (fun fuel => findLeaf fuel (oneLeaf [(5, 50), (7, 70)]).heap 3 7)
      (3, 0) := by
    refine ⟨2, ?_⟩
    intro fuel hfuel
    obtain ⟨k, rfl⟩ : ∃ k, fuel = k + 2 := ⟨fuel - 2, by omega⟩
    rfl
  refine SafeCalls.cons (fun _ h => by cases h) hset₁ (SafeCalls.cons (fun _ h => by cases h) hset₂
    ⟨fun key hkey root hroot => ?_, fun _ _ => trivial⟩)
  obtain rfl : 7 = key := by simpa using hkey
  obtain rfl : 3 = root := by simpa [oneLeaf] using hroot
  exact ⟨3, 0, _, _, hfind, rfl, rfl, by decide, by decide⟩

/-- The lesser leaf is empty: `delete_key` reads its first pair all the same. -/
theorem delete_below_first_key_faults :
    Faults (fun fuel => Tree.calls Order.six.config fuel
        ([.set 5 50, .delete 3] : List (Call Nat Nat)) {}) .nullPointer ∧
      ¬ AnswersAsMap Order.six.config ([.set 5 50, .delete 3] : List (Call Nat Nat)) := by
  have hfault : Faults (fun fuel => Tree.calls Order.six.config fuel
      ([.set 5 50, .delete 3] : List (Call Nat Nat)) {}) .nullPointer := by
    refine ⟨2, ?_⟩
    intro fuel hfuel
    obtain ⟨k, rfl⟩ : ∃ k, fuel = k + 2 := ⟨fuel - 2, by omega⟩
    rfl
  exact ⟨hfault, fun ⟨t, hrun, _⟩ => hfault.not_returns t hrun⟩

end StateDb.Bpt
