/-
  StateDb/BptDeleteChild.lean
  ===========================
  **`delete_child`, and what `delete_key` does above a leaf** (`bpt_internal.h`).

  The loop of `delete_child` looks at the node behind the first one, deletes it when it
  has the key, and does not move on when it has not.  So it ends just when all nodes
  behind the first have the key, whatever heap it runs on (`deleteChild_ends_iff`).

  `delete_key` goes down to the node above the leaf of the key, and does there whatever it
  does: the nodes further up only look at the size of their child, which is an internal
  node's and never zero (`baseDeleteKey_leads`).
-/
import StateDb.BptDelete
import Mathlib.Logic.Relation

namespace StateDb.Bpt

open Lib Lib.SortedAssoc

variable {K V : Type} [LinearOrder K] {cfg : Config} {Q : LeafPolicy K V}

/-! ## The loop -/

/-- From `r` on, all list nodes have the key. -/
def Keyed (h : Heap K V) (key : K) (r : Option Nat) : Prop :=
  ∀ a n, OnList h r a → h.read a = some (.listNode n) → n.key = key

omit [LinearOrder K] in
theorem keyed_none (h : Heap K V) (key : K) : Keyed h key none := by
  intro a n ha
  cases ha

omit [LinearOrder K] in
theorem keyed_some {h : Heap K V} {key : K} {a : Nat} {n : ListNode K}
    (hn : h.read a = some (.listNode n)) :
    Keyed h key (some a) ↔ n.key = key ∧ Keyed h key n.mNext := by
  constructor
  · intro hkeyed
    exact ⟨hkeyed a n .first hn, fun b m hb => hkeyed b m (.next hn hb)⟩
  · rintro ⟨hkey, hrest⟩ b m hb hm
    cases hb with
    | first =>
      rw [hn] at hm
      cases hm
      exact hkey
    | next cell rest =>
      rw [hn] at cell
      cases cell
      exact hrest b m rest hm

/-- What hangs behind a list is a node with another key. -/
def Stranger (h : Heap K V) (key : K) (tail : Option Nat) : Prop :=
  ∀ a, tail = some a → ∃ n : ListNode K, h.read a = some (.listNode n) ∧ n.key ≠ key

omit [LinearOrder K] in
theorem Linked.keyed_iff {h : Heap K V} {key : K} {r tail : Option Nat} {es : List (Sep K)}
    (hl : Linked h r es tail) (htail : Stranger h key tail) :
    Keyed h key r ↔ (∀ e ∈ es, e.key = key) ∧ tail = none := by
  induction es generalizing r with
  | nil =>
    obtain rfl : r = tail := hl
    constructor
    · intro hkeyed
      refine ⟨by simp, ?_⟩
      by_contra hsome
      obtain ⟨a, rfl⟩ := Option.ne_none_iff_exists'.mp hsome
      obtain ⟨n, hn, hne⟩ := htail a rfl
      exact hne (hkeyed a n .first hn)
    · rintro ⟨-, rfl⟩
      exact keyed_none h key
  | cons e es ih =>
    obtain ⟨rfl, next, hcell, hrest⟩ := hl
    rw [keyed_some hcell, ih hrest, List.forall_mem_cons, and_assoc]

omit [LinearOrder K] in
/-- Lists that come by none of the changed cells are as they were. -/
theorem OnList.back {h h' : Heap K V} {r : Option Nat} {a : Nat} (ha : OnList h' r a)
    (hsame : ∀ b (n : ListNode K), OnList h r b → h'.read b = some (.listNode n) →
      h.read b = some (.listNode n)) : OnList h r a := by
  induction ha with
  | first => exact .first
  | next cell _ ih =>
    have hcell := hsame _ _ .first cell
    exact .next hcell (ih fun b n hb => hsame b n (.next hcell hb))

/-- The list node `lN`, whose key is another one, and the node `a` of the key behind it. -/
structure AtNext (h : Heap K V) (key : K) (lN a : Nat) (l n : ListNode K) : Prop where
  here : h.read lN = some (.listNode l)
  next : l.mNext = some a
  cell : h.read a = some (.listNode n)
  other : l.key ≠ key
  key : n.key = key

namespace AtNext

variable {h : Heap K V} {key : K} {lN a : Nat} {l n : ListNode K}

omit [LinearOrder K]

theorem ne (hat : AtNext h key lN a l n) : lN ≠ a := by
  rintro rfl
  have hcell := hat.cell
  rw [hat.here] at hcell
  cases hcell
  exact hat.other hat.key

/-- The heap with the node of the key deleted. -/
def after (h : Heap K V) (lN a : Nat) (l n : ListNode K) : Heap K V :=
  (h.write lN (.listNode { l with mNext := n.mNext })).free a

theorem read_here (hat : AtNext h key lN a l n) :
    (after h lN a l n).read lN = some (.listNode { l with mNext := n.mNext }) := by
  rw [after, CellStore.read_free_of_ne hat.ne, CellStore.read_write_self hat.here]

theorem read_other {b : Nat} (hb : b ≠ lN) (hba : b ≠ a) :
    (after h lN a l n).read b = h.read b := by
  rw [after, CellStore.read_free_of_ne hba, CellStore.read_write_of_ne hb]

theorem live (hat : AtNext h key lN a l n) : (after h lN a l n).live < h.live := by
  rw [after, ← CellStore.live_write hat.here (.listNode { l with mNext := n.mNext })]
  exact CellStore.live_free ((CellStore.read_write_of_ne hat.ne.symm).trans hat.cell)

theorem not_keyed_here (hat : AtNext h key lN a l n) :
    ¬ Keyed (after h lN a l n) key (some lN) := by
  intro hk
  have hkey := hk lN _ .first hat.read_here
  exact hat.other hkey

/-- A node with another key stays on its list, or on what is left behind `a`, unless `lN` comes
before it there. -/
theorem not_keyed_of_onList (hat : AtNext h key lN a l n) {r : Option Nat} {b : Nat}
    {m : ListNode K} (hb : OnList h r b) (hm : h.read b = some (.listNode m)) (hne : m.key ≠ key)
    (hbehind : Keyed (after h lN a l n) key n.mNext) : ¬ Keyed (after h lN a l n) key r := by
  induction hb with
  | @first b =>
    intro hk
    have hba : b ≠ a := by
      rintro rfl
      rw [hat.cell] at hm
      cases hm
      exact hne hat.key
    by_cases hlN : b = lN
    · exact hat.not_keyed_here (hlN ▸ hk)
    · exact hne (hk b m .first ((read_other hlN hba).trans hm))
  | @next c b nc cell rest ih =>
    intro hk
    by_cases hlN : c = lN
    · exact hat.not_keyed_here (hlN ▸ hk)
    · by_cases hca : c = a
      · subst hca
        rw [hat.cell] at cell
        cases cell
        exact ih hm hbehind
      · have hcell := (read_other (l := l) (n := n) hlN hca).trans cell
        exact ih hm ((keyed_some hcell).mp hk).2

/-- What is behind `a` does not come by `lN`, when all of it has the key. -/
theorem keyed_behind (hat : AtNext h key lN a l n) (hk : Keyed h key n.mNext) :
    Keyed (after h lN a l n) key n.mNext := by
  have hsame : ∀ c (k : ListNode K), OnList h n.mNext c →
      (after h lN a l n).read c = some (.listNode k) → h.read c = some (.listNode k) := by
    intro c k hc hread
    have hlN : c ≠ lN := by
      rintro rfl
      exact hat.other (hk c l hc hat.here)
    have hca : c ≠ a := by
      rintro rfl
      rw [after, CellStore.read_free_self] at hread
      cases hread
    rw [← hread, read_other hlN hca]
  intro b m hb hm
  have hb' := hb.back hsame
  exact hk b m hb' (hsame b m hb' hm)

/-- Deleting the node leaves open whether all that is behind `lN` has the key. -/
theorem keyed_iff (hat : AtNext h key lN a l n) :
    Keyed (after h lN a l n) key n.mNext ↔ Keyed h key l.mNext := by
  rw [hat.next, keyed_some hat.cell]
  constructor
  · intro hkeyed
    refine ⟨hat.key, fun b m hb hm => ?_⟩
    by_contra hne
    exact hat.not_keyed_of_onList hb hm hne hkeyed hkeyed
  · rintro ⟨-, hkeyed⟩
    exact hat.keyed_behind hkeyed

end AtNext

/-- The loop stays where it is when the next node has another key. -/
theorem deleteChildLoop_stays {h : Heap K V} {lN a : Nat} {l n : ListNode K} {key : K}
    (hl : h.read lN = some (.listNode l)) (hnext : l.mNext = some a)
    (hn : h.read a = some (.listNode n)) (hne : n.key ≠ key) (fuel : Nat) :
    deleteChildLoop fuel h lN key = .outOfFuel := by
  induction fuel with
  | zero => rfl
  | succ fuel ih =>
    simp only [deleteChildLoop, derefListNode_eq hl, Outcome.ok_bind, hnext, derefListNode_eq hn,
      if_neg hne]
    exact ih

/-- It deletes the next node when that has the key. -/
theorem deleteChildLoop_step {h : Heap K V} {lN a : Nat} {l n : ListNode K}
    (hl : h.read lN = some (.listNode l)) (hnext : l.mNext = some a)
    (hn : h.read a = some (.listNode n)) : Leads (fun fuel => deleteChildLoop fuel h lN n.key)
      (fun fuel => deleteChildLoop fuel
        ((h.write lN (.listNode { l with mNext := n.mNext })).free a) lN n.key) := by
  apply Leads.of_succ
  simp only [deleteChildLoop, derefListNode_eq hl, Outcome.ok_bind, hnext, derefListNode_eq hn,
    if_true]
  exact Leads.refl _

omit [LinearOrder K] in
theorem derefListNode_cases (h : Heap K V) (a : Nat) :
    (∃ n, h.read a = some (.listNode n)) ∨ ∃ e, derefListNode h a = .fault e := by
  unfold derefListNode
  split
  · rename_i n hn
    exact Or.inl ⟨n, hn⟩
  · exact Or.inr ⟨_, rfl⟩
  · exact Or.inr ⟨_, rfl⟩

theorem deleteChildLoop_ends {h : Heap K V} {key : K} {lN : Nat} {l : ListNode K}
    (hl : h.read lN = some (.listNode l)) (hne : l.key ≠ key) (hkeyed : Keyed h key l.mNext) :
    Ends (fun fuel => deleteChildLoop fuel h lN key) := by
  induction hlive : h.live using Nat.strong_induction_on generalizing h l with
  | _ live ih =>
    subst hlive
    cases hnext : l.mNext with
    | none =>
      refine Or.inl ⟨h, Returns.of_succ ⟨0, fun fuel _ => ?_⟩⟩
      simp only [deleteChildLoop, derefListNode_eq hl, Outcome.ok_bind, hnext]
    | some a =>
      rcases derefListNode_cases h a with ⟨n, hn⟩ | ⟨e, he⟩
      · rw [hnext] at hkeyed
        obtain rfl : n.key = key := ((keyed_some hn).mp hkeyed).1
        have hat : AtNext h n.key lN a l n := ⟨hl, hnext, hn, hne, rfl⟩
        have hstep := deleteChildLoop_step hl hnext hn
        rcases ih _ hat.live hat.read_here hne (hat.keyed_iff.mpr (hnext ▸ hkeyed)) rfl
          with ⟨h', hrun⟩ | ⟨e, hrun⟩
        · exact Or.inl ⟨h', hstep.returns hrun⟩
        · exact Or.inr ⟨e, hstep.faults hrun⟩
      · refine Or.inr ⟨e, 1, fun fuel hfuel => ?_⟩
        obtain ⟨k, rfl⟩ : ∃ k, fuel = k + 1 := ⟨fuel - 1, by omega⟩
        simp only [deleteChildLoop, derefListNode_eq hl, Outcome.ok_bind, hnext, he]
        rfl

theorem deleteChildLoop_starves {h : Heap K V} {key : K} {lN : Nat} {l : ListNode K}
    (hl : h.read lN = some (.listNode l)) (hne : l.key ≠ key) (hnot : ¬ Keyed h key l.mNext)
    (fuel : Nat) : deleteChildLoop fuel h lN key = .outOfFuel := by
  induction fuel generalizing h l with
  | zero => rfl
  | succ fuel ih =>
    cases hnext : l.mNext with
    | none => exact absurd (hnext ▸ keyed_none h key) hnot
    | some a =>
      rcases derefListNode_cases h a with ⟨n, hn⟩ | ⟨e, he⟩
      · by_cases hkey : n.key = key
        · have hat : AtNext h key lN a l n := ⟨hl, hnext, hn, hne, hkey⟩
          simp only [deleteChildLoop, derefListNode_eq hl, Outcome.ok_bind, hnext,
            derefListNode_eq hn, if_pos hkey]
          exact ih hat.read_here hne fun hk => hnot (hat.keyed_iff.mp hk)
        · exact deleteChildLoop_stays hl hnext hn hkey (fuel + 1)
      · -- nothing lies at `a`: no list node is behind `lN`
        refine absurd (fun b m hb hm => ?_) hnot
        rw [hnext] at hb
        have hgone : ∀ m : ListNode K, h.read a ≠ some (.listNode m) := by
          intro m hm
          rw [derefListNode_eq hm] at he
          cases he
        cases hb with
        | first => exact absurd hm (hgone m)
        | next cell => exact absurd cell (hgone _)

/-- Along a whole list whose nodes all have the key, the loop comes to the end. -/
theorem deleteChildLoop_returns {h : Heap K V} {key : K} {e : Sep K} {es : List (Sep K)}
    (hl : Linked h (some e.node) (e :: es) none) (hnd : ((e :: es).map Sep.node).Nodup)
    (hne : e.key ≠ key) (hall : ∀ f ∈ es, f.key = key) :
    ∃ h', Returns (fun fuel => deleteChildLoop fuel h e.node key) h' := by
  induction es generalizing h with
  | nil =>
    obtain ⟨-, next, hcell, rfl⟩ := hl
    refine ⟨h, Returns.of_succ ⟨0, fun fuel _ => ?_⟩⟩
    simp only [deleteChildLoop, derefListNode_eq hcell, Outcome.ok_bind]
  | cons f fs ih =>
    obtain ⟨-, next, hcell, rfl, next', hcell', hrest⟩ := hl
    obtain ⟨rfl, hall⟩ := List.forall_mem_cons.mp hall
    have hat : AtNext h f.key e.node f.node ⟨e.key, e.child, some f.node⟩ ⟨f.key, f.child, next'⟩ :=
      ⟨hcell, rfl, hcell', hne, rfl⟩
    simp only [List.map_cons, List.nodup_cons, List.mem_cons, not_or] at hnd
    obtain ⟨⟨-, he⟩, hf, hfs⟩ := hnd
    -- the node is deleted, and the loop looks at the one behind
    have hrest' : Linked (AtNext.after h e.node f.node ⟨e.key, e.child, some f.node⟩
        ⟨f.key, f.child, next'⟩) next' fs none := by
      refine hrest.frame fun g hg => ?_
      have hmem : g.node ∈ fs.map Sep.node := List.mem_map_of_mem hg
      exact AtNext.read_other (fun heq => he (heq ▸ hmem)) (fun heq => hf (heq ▸ hmem))
    obtain ⟨h', hrun⟩ := ih ⟨rfl, next', hat.read_here, hrest'⟩
      (by simp only [List.map_cons, List.nodup_cons]; exact ⟨he, hfs⟩) hall
    exact ⟨h', (deleteChildLoop_step hcell rfl hcell').returns hrun⟩

/-! ## `delete_child` -/

/-- The first list node of `n` has the key, or all the others have. -/
def ChildFound (h : Heap K V) (n : Internal) (key : K) : Prop :=
  ∀ (a : Nat) (l : ListNode K), n.mRoot = some a → h.read a = some (.listNode l) →
    l.key = key ∨ Keyed h key l.mNext

section DeleteChild

variable {h : Heap K V} {this : Nat} {n : Internal} {key : K}

omit [LinearOrder K] in
theorem childFound_iff {a : Nat} {l : ListNode K} (hroot : n.mRoot = some a)
    (hread : h.read a = some (.listNode l)) :
    ChildFound h n key ↔ l.key = key ∨ Keyed h key l.mNext := by
  constructor
  · intro hfound
    exact hfound a l hroot hread
  · intro hcase b m hb hm
    obtain rfl := Option.some.inj (hroot.symm.trans hb)
    rw [hread] at hm
    cases hm
    exact hcase

theorem deleteChild_ends (hcell : h.read this = some (.internal n)) (hfound : ChildFound h n key) :
    Ends (fun fuel => deleteChild fuel h this key) := by
  simp only [deleteChild, derefInternal_eq hcell, Outcome.ok_bind]
  cases hroot : n.mRoot with
  | none => exact Or.inr ⟨.nullPointer, 0, fun _ _ => rfl⟩
  | some a =>
    rcases derefListNode_cases h a with ⟨l, hl⟩ | ⟨e, he⟩
    · simp only [nonNull, Outcome.ok_bind, derefListNode_eq hl]
      by_cases hkey : l.key = key
      · simp only [if_pos hkey]
        exact Or.inl ⟨_, Returns.const rfl⟩
      · simp only [if_neg hkey]
        exact deleteChildLoop_ends hl hkey (((childFound_iff hroot hl).mp hfound).resolve_left hkey)
    · simp only [nonNull, Outcome.ok_bind, he]
      exact Or.inr ⟨e, 0, fun _ _ => rfl⟩

theorem deleteChild_starves (hcell : h.read this = some (.internal n))
    (hnot : ¬ ChildFound h n key) : Starves (fun fuel => deleteChild fuel h this key) := by
  simp only [ChildFound, not_forall, not_or] at hnot
  obtain ⟨a, l, hroot, hl, hkey, hkeyed⟩ := hnot
  refine ⟨0, fun fuel _ => ?_⟩
  simp only [deleteChild, derefInternal_eq hcell, Outcome.ok_bind, hroot, nonNull,
    derefListNode_eq hl, if_neg hkey]
  exact deleteChildLoop_starves hl hkey hkeyed fuel

/-- The call ends just when it finds the child. -/
theorem deleteChild_ends_iff (hcell : h.read this = some (.internal n)) :
    Ends (fun fuel => deleteChild fuel h this key) ↔ ChildFound h n key := by
  constructor
  · intro hends
    by_contra hnot
    exact (deleteChild_starves hcell hnot).not_ends hends
  · exact deleteChild_ends hcell

/-- On the list of a node, a call that ends returns. -/
theorem deleteChild_returns {e : Sep K} {es : List (Sep K)} {tail : Option Nat}
    (hcell : h.read this = some (.internal n)) (hl : Linked h n.mRoot (e :: es) tail)
    (hnd : ((e :: es).map Sep.node).Nodup) (htail : Stranger h key tail)
    (hfound : ChildFound h n key) :
    ∃ h', Returns (fun fuel => deleteChild fuel h this key) h' := by
  have hroot : n.mRoot = some e.node := hl.1
  rw [hroot] at hl
  obtain ⟨-, next, hfirst, hrest⟩ := id hl
  simp only [deleteChild, derefInternal_eq hcell, Outcome.ok_bind, hroot, nonNull,
    derefListNode_eq hfirst]
  by_cases hkey : e.key = key
  · simp only [if_pos hkey]
    exact ⟨_, Returns.const rfl⟩
  · simp only [if_neg hkey]
    obtain ⟨hall, rfl⟩ := (hrest.keyed_iff htail).mp
      (((childFound_iff hroot hfirst).mp hfound).resolve_left hkey)
    exact deleteChildLoop_returns hl hnd hkey hall

end DeleteChild

/-! ## What `delete_key` may do to the heap -/

/-- One thing that `delete_key` does to the heap. -/
inductive DeleteStep (h : Heap K V) : Heap K V → Prop
  | leaf {a : Nat} {l : Leaf K V} {key : K} {r : LeafList K V × Bool}
      (cell : h.read a = some (.leaf l)) (run : l.mList.deleteKey key = .ok r) :
      DeleteStep h (h.write a (.leaf { l with mList := r.1 }))
  | link {a : Nat} {l : ListNode K} (cell : h.read a = some (.listNode l)) (next : Option Nat) :
      DeleteStep h (h.write a (.listNode { l with mNext := next }))
  | unroot {a : Nat} {n : Internal} (cell : h.read a = some (.internal n)) (root : Option Nat) :
      DeleteStep h (h.write a (.internal { n with mRoot := root }))
  | free {a : Nat} {l : ListNode K} (cell : h.read a = some (.listNode l)) :
      DeleteStep h (h.free a)

abbrev DeleteSteps : Heap K V → Heap K V → Prop := Relation.ReflTransGen DeleteStep

theorem deleteChildLoop_steps {fuel : Nat} {h h' : Heap K V} {lN : Nat} {key : K}
    (hrun : deleteChildLoop fuel h lN key = .ok h') : DeleteSteps h h' := by
  induction fuel generalizing h with
  | zero => cases hrun
  | succ fuel ih =>
    obtain ⟨l, hl, hrun⟩ := Outcome.bind_eq_ok.mp hrun
    have hread := derefListNode_ok hl
    split at hrun
    · obtain rfl := Outcome.ok.inj hrun
      exact .refl
    · rename_i next _
      obtain ⟨n, hn, hrun⟩ := Outcome.bind_eq_ok.mp hrun
      split at hrun
      · refine .head (.link hread n.mNext) (.head ?_ (ih hrun))
        by_cases hsame : next = lN
        · rw [hsame]
          exact .free (CellStore.read_write_self hread)
        · exact .free ((CellStore.read_write_of_ne hsame).trans (derefListNode_ok hn))
      · exact ih hrun

theorem deleteChild_steps {fuel : Nat} {h h' : Heap K V} {this : Nat} {key : K}
    (hrun : deleteChild fuel h this key = .ok h') : DeleteSteps h h' := by
  obtain ⟨n, hn, hrun⟩ := Outcome.bind_eq_ok.mp hrun
  obtain ⟨lN, -, hrun⟩ := Outcome.bind_eq_ok.mp hrun
  obtain ⟨l, hl, hrun⟩ := Outcome.bind_eq_ok.mp hrun
  have hcell := derefInternal_ok hn
  have hread := derefListNode_ok hl
  split at hrun
  · obtain rfl := Outcome.ok.inj hrun
    have hne : lN ≠ this := by
      rintro rfl
      rw [hcell] at hread
      cases hread
    exact .head (.unroot hcell l.mNext)
      (.single (.free ((CellStore.read_write_of_ne hne).trans hread)))
  · exact deleteChildLoop_steps hrun

theorem baseDeleteKey_steps {fuel : Nat} {h h' : Heap K V} {this : Nat} {key : K} {b : Bool}
    (hrun : baseDeleteKey fuel h this key = .ok (h', b)) : DeleteSteps h h' := by
  induction fuel generalizing this h' b with
  | zero => cases hrun
  | succ fuel ih =>
    obtain ⟨leaf, -, hrun⟩ := Outcome.bind_eq_ok.mp hrun
    split at hrun
    · obtain ⟨l, hl, hrun⟩ := Outcome.bind_eq_ok.mp hrun
      obtain ⟨r, hr, hrun⟩ := Outcome.bind_eq_ok.mp hrun
      obtain ⟨rfl, -⟩ := Prod.mk.inj (Outcome.ok.inj hrun)
      exact .single (.leaf (derefLeaf_ok hl) hr)
    · obtain ⟨child, -, hrun⟩ := Outcome.bind_eq_ok.mp hrun
      obtain ⟨⟨h₁, b₁⟩, hchild, hrun⟩ := Outcome.bind_eq_ok.mp hrun
      have hsteps := ih hchild
      split at hrun
      · obtain ⟨size, -, hrun⟩ := Outcome.bind_eq_ok.mp hrun
        split at hrun
        · obtain ⟨n, -, hrun⟩ := Outcome.bind_eq_ok.mp hrun
          split at hrun
          · obtain ⟨rfl, -⟩ := Prod.mk.inj (Outcome.ok.inj hrun)
            exact hsteps
          · obtain ⟨h₂, hdelete, hrun⟩ := Outcome.bind_eq_ok.mp hrun
            obtain ⟨rfl, -⟩ := Prod.mk.inj (Outcome.ok.inj hrun)
            exact hsteps.trans (deleteChild_steps hdelete)
        · obtain ⟨rfl, -⟩ := Prod.mk.inj (Outcome.ok.inj hrun)
          exact hsteps
      · obtain ⟨rfl, -⟩ := Prod.mk.inj (Outcome.ok.inj hrun)
        exact hsteps

omit [LinearOrder K] in
/-- A cell that is no internal node is overwritten. -/
theorem read_internal_write {h : Heap K V} {a b : Nat} {c : Cell K V} {n : Internal}
    (hc : h.read a = some c) (hother : ∀ m : Internal, c ≠ .internal m)
    (hn : h.read b = some (.internal n)) (c' : Cell K V) :
    (h.write a c').read b = some (.internal n) := by
  have hne : b ≠ a := by
    rintro rfl
    rw [hn] at hc
    exact hother n (Option.some.inj hc).symm
  rw [CellStore.read_write_of_ne hne, hn]

/-- Every internal node stays, with its counter. -/
theorem DeleteStep.internal {h h' : Heap K V} (hstep : DeleteStep h h') {a : Nat} {n : Internal}
    (hn : h.read a = some (.internal n)) :
    ∃ n' : Internal, h'.read a = some (.internal n') ∧ n'.mSize = n.mSize := by
  cases hstep with
  | leaf cell _ => exact ⟨n, read_internal_write cell (fun _ heq => by cases heq) hn _, rfl⟩
  | link cell _ => exact ⟨n, read_internal_write cell (fun _ heq => by cases heq) hn _, rfl⟩
  | @unroot b m cell root =>
    by_cases hb : a = b
    · subst hb
      rw [hn] at cell
      cases cell
      exact ⟨_, CellStore.read_write_self hn, rfl⟩
    · exact ⟨n, by rw [CellStore.read_write_of_ne hb, hn], rfl⟩
  | @free b l cell =>
    have hb : a ≠ b := by
      rintro rfl
      rw [hn] at cell
      cases cell
    exact ⟨n, by rw [CellStore.read_free_of_ne hb, hn], rfl⟩

theorem DeleteSteps.internal {h h' : Heap K V} (hsteps : DeleteSteps h h') {a : Nat} {n : Internal}
    (hn : h.read a = some (.internal n)) :
    ∃ n' : Internal, h'.read a = some (.internal n') ∧ n'.mSize = n.mSize := by
  induction hsteps with
  | refl => exact ⟨n, hn, rfl⟩
  | tail _ hstep ih =>
    obtain ⟨n₁, hn₁, heq₁⟩ := ih
    obtain ⟨n₂, hn₂, heq₂⟩ := hstep.internal hn₁
    exact ⟨n₂, hn₂, heq₂.trans heq₁⟩

/-! ## The node above the leaf -/

/-- `n` is the node above the leaf `l` of the key. -/
structure LeafParent (h : Heap K V) (key : K) (parent leaf : Nat) (n : Internal) (l : Leaf K V) :
    Prop where
  cell : h.read parent = some (.internal n)
  route : Returns (fun fuel => getChildGe fuel h parent key) leaf
  leafCell : h.read leaf = some (.leaf l)
  sorted : Sorted l.mList.nodes
  sized : l.mList.Sized
  lt_size : l.mList.nodes.length < sizeMod

/-- The list of `n` is as it should be for the key. -/
def ListFor (h : Heap K V) (n : Internal) (key : K) : Prop :=
  ∃ e es tail, Linked h n.mRoot (e :: es) tail ∧ ((e :: es).map Sep.node).Nodup ∧
    Stranger h key tail

/-- What hangs behind the list of a node is a stranger to the keys of the node. -/
theorem IsInternal.stranger {cap : Nat} {h : Heap K V}
    {P : WithBot K → WithTop K → Nat → Span K V → Prop} {lo : WithBot K} {hi : WithTop K} {p : Nat}
    {n : Internal} {seps : List (Sep K)} {tail : Option Nat} {spans : List (Span K V)}
    (hn : IsInternal cap h P lo hi p n seps tail spans) {key : K} (hkey : (key : WithTop K) < hi) :
    Stranger h key tail := by
  intro a ha
  obtain ⟨m, hm, hle⟩ := hn.beyond a ha
  exact ⟨m, hm, (WithTop.coe_lt_coe.mp (lt_of_lt_of_le hkey hle)).ne'⟩

/-- Going down to an internal node adds nothing to what is done there. -/
theorem baseDeleteKey_leads {h : Heap K V} {p child : Nat} {n nc : Internal} {key : K}
    (hcell : h.read p = some (.internal n))
    (hchild : Returns (fun fuel => getChildGe fuel h p key) child)
    (hc : h.read child = some (.internal nc)) (hpos : nc.mSize ≠ 0) :
    Leads (fun fuel => baseDeleteKey fuel h p key)
      (fun fuel => baseDeleteKey fuel h child key) := by
  apply Leads.of_succ
  simp only [baseDeleteKey, isLeaf_of_internal hcell, Outcome.ok_bind]
  refine (Returns.leads hchild).trans ⟨0, 0, ?_⟩
  intro fuel _
  cases hrun : baseDeleteKey fuel h child key with
  | fault e => simp only [Nat.add_zero, hrun]; rfl
  | outOfFuel => simp only [Nat.add_zero, hrun]; rfl
  | ok r =>
    obtain ⟨h', b⟩ := r
    obtain ⟨n', hn', hsize⟩ := (baseDeleteKey_steps hrun).internal hc
    simp only [Nat.add_zero, hrun, Outcome.ok_bind, baseSize, hn', hsize, if_neg hpos]
    cases b <;> rfl

/-- `delete_key` goes down to the node above the leaf of the key. -/
theorem HasInternal.exists_leafParent (hcfg : cfg.Admissible) {h : Heap K V} {d : Nat}
    {lo : WithBot K} {hi : WithTop K} {p : Nat} {s : Span K V}
    (hr : HasInternal cfg.maxSize h (Rep cfg Q h d) lo hi p s) (hnd : s.foot.Nodup)
    (key : K) (hlo : lo ≤ key) (hhi : (key : WithTop K) < hi) :
    ∃ parent leaf n l, LeafParent h key parent leaf n l ∧ ListFor h n key ∧
      Returns (fun fuel => findLeaf fuel h p key) (parent, leaf) ∧
      Leads (fun fuel => baseDeleteKey fuel h p key) (fun fuel => baseDeleteKey fuel h parent key) ∧
      s.entries.lookup key = l.mList.nodes.lookup key := by
  induction d generalizing lo hi p s with
  | zero => exact absurd hr HasInternal.not_zero
  | succ d ih =>
    obtain ⟨n, seps, tail, spans, hn, rfl⟩ := hr
    obtain ⟨pre, post, before, t, after, rfl, rfl, hroute⟩ := hn.exists_route hlo hhi
    have hs := (Rep.stable cfg _ (d + 1)).owns hn hnd
    have hlookup := hroute.hole.lookup hroute.before hroute.after p (pre ++ post)
    rcases hroute.hole.child with hv | ⟨l, hl, rfl⟩ | hc
    · exact (hv.elim hroute.low hroute.high).elim
    · -- the child is the leaf
      have hlt := hcfg.lt_size
      have hmax : cfg.maxSize = cfg.order - 1 := rfl
      have hcap := hl.capacity
      refine ⟨p, lastChild n.mLesser pre, n, l,
        ⟨hn.cell, hroute.child, hl.cell, hl.sorted, hl.sized, by omega⟩, ?_, ?_, Leads.refl _,
        hlookup⟩
      · obtain ⟨e, es, hseps⟩ := List.exists_cons_of_ne_nil hn.nonempty
        have hnodes : ((pre ++ post).map Sep.node).Nodup := (List.nodup_cons.mp hs.own_nodup).2
        exact ⟨e, es, tail, hseps ▸ hn.linked, hseps ▸ hnodes, hn.stranger hhi⟩
      · refine Returns.of_succ (Returns.bind hroute.child ⟨0, ?_⟩)
        intro fuel _
        simp [isLeaf_of_leaf hl.cell]
    · -- the leaf is below the child
      obtain ⟨parent, leaf, n', l, hparent, hlist, hfind, hleads, hlook⟩ :=
        ih hc hs.child_nodup hroute.low hroute.high
      obtain ⟨nc, seps', tail', spans', hnc, -⟩ := hc
      refine ⟨parent, leaf, n', l, hparent, hlist, ?_,
        (baseDeleteKey_leads hn.cell hroute.child hnc.cell hnc.size_ne_zero).trans hleads,
        hlookup.trans hlook⟩
      refine Returns.of_succ (Returns.bind hroute.child (hfind.congr ?_))
      intro fuel
      simp [isLeaf_of_internal hnc.cell]

/-! ## What is done there -/

omit [LinearOrder K] in
theorem Keyed.congr {h h' : Heap K V} {key : K} {r : Option Nat}
    (hsame : ∀ a (n : ListNode K), h'.read a = some (.listNode n) ↔ h.read a = some (.listNode n))
    (hk : Keyed h key r) : Keyed h' key r := by
  intro a n ha hn
  exact hk a n (ha.back fun b m _ => (hsame b m).mp) ((hsame a n).mp hn)

omit [LinearOrder K] in
theorem ChildFound.congr {h h' : Heap K V} {n : Internal} {key : K}
    (hsame : ∀ a (n : ListNode K), h'.read a = some (.listNode n) ↔ h.read a = some (.listNode n))
    (hf : ChildFound h n key) : ChildFound h' n key := by
  intro a l hroot hread
  exact (hf a l hroot ((hsame a l).mp hread)).imp_right (Keyed.congr hsame)

omit [LinearOrder K] in
/-- A leaf that is written over a leaf changes no list node. -/
theorem read_listNode_writeLeaf {h : Heap K V} {p : Nat} {l l' : Leaf K V}
    (hc : h.read p = some (.leaf l)) (a : Nat) (n : ListNode K) :
    (h.write p (.leaf l')).read a = some (.listNode n) ↔ h.read a = some (.listNode n) := by
  by_cases ha : a = p
  · subst ha
    rw [CellStore.read_write_self hc, hc]
    constructor
    · intro heq
      cases heq
    · intro heq
      cases heq
  · rw [CellStore.read_write_of_ne ha]

/-- `delete_key` on the list of a leaf, as a step of `delete_key` of the node above. -/
theorem leafDelete_run {h : Heap K V} {leaf : Nat} {l : Leaf K V}
    (hc : h.read leaf = some (.leaf l)) (hs : Sorted l.mList.nodes) (hsized : l.mList.Sized)
    (hlt : l.mList.nodes.length < sizeMod) (key : K) (hne : l.mList.nodes ≠ []) :
    ∃ l' : Leaf K V, Returns (fun fuel => baseDeleteKey fuel h leaf key)
        (h.write leaf (.leaf l'), (l.mList.nodes.lookup key).isSome) ∧
      l'.mList.size = (remove key l.mList.nodes).length := by
  obtain ⟨list, hrun, hnodes, hsized'⟩ := LeafList.deleteKey_eq key hs hsized hlt hne
  refine ⟨{ l with mList := list }, Returns.of_succ ⟨0, fun fuel _ => ?_⟩, hnodes ▸ hsized'⟩
  simp [baseDeleteKey, isLeaf_of_leaf hc, derefLeaf_eq hc, hrun]

namespace LeafParent

variable {h : Heap K V} {key : K} {parent leaf : Nat} {n : Internal} {l : Leaf K V}

theorem apart (hp : LeafParent h key parent leaf n l) : parent ≠ leaf := by
  rintro rfl
  have hcell := hp.cell
  rw [hp.leafCell] at hcell
  cases hcell

/-- The list of the leaf is empty. -/
theorem faults (hp : LeafParent h key parent leaf n l) (hnil : l.mList.nodes = []) :
    Faults (fun fuel => baseDeleteKey fuel h parent key) .nullPointer := by
  refine Leads.faults (Leads.of_succ ?_) (g := fun _ => .fault .nullPointer) ⟨0, fun _ _ => rfl⟩
  simp only [baseDeleteKey, isLeaf_of_internal hp.cell, Outcome.ok_bind]
  refine (Returns.leads hp.route).trans (Leads.of_succ ⟨0, 0, ?_⟩)
  intro fuel _
  simp [baseDeleteKey, isLeaf_of_leaf hp.leafCell, derefLeaf_eq hp.leafCell, LeafList.deleteKey,
    hnil]

/-- What follows when the key was looked for in the leaf. -/
theorem leads (hp : LeafParent h key parent leaf n l) (hne : l.mList.nodes ≠ []) :
    ∃ l' : Leaf K V, Leads (fun fuel => baseDeleteKey fuel h parent key) fun fuel =>
      if (l.mList.nodes.lookup key).isSome = true then
        if (remove key l.mList.nodes).length = 0 then
          if n.mLesser = leaf then .ok (h.write leaf (.leaf l'), false)
          else do
            let h' ← deleteChild fuel (h.write leaf (.leaf l')) parent key
            .ok (h', true)
        else .ok (h.write leaf (.leaf l'), true)
      else .ok (h.write leaf (.leaf l'), false) := by
  obtain ⟨l', hrun, hsize⟩ := leafDelete_run hp.leafCell hp.sorted hp.sized hp.lt_size key hne
  have hcell : (h.write leaf (.leaf l')).read parent = some (.internal n) := by
    rw [CellStore.read_write_of_ne hp.apart, hp.cell]
  have hleaf : baseSize (h.write leaf (.leaf l')) leaf = .ok (remove key l.mList.nodes).length := by
    rw [baseSize, CellStore.read_write_self hp.leafCell, ← hsize]
  refine ⟨l', Leads.of_succ ?_⟩
  simp only [baseDeleteKey, isLeaf_of_internal hp.cell, Outcome.ok_bind]
  refine (Returns.leads hp.route).trans ((Returns.leads hrun).trans ⟨0, 0, ?_⟩)
  intro fuel _
  simp only [Nat.add_zero, hleaf, Outcome.ok_bind, derefInternal_eq hcell]

/-- The leaf keeps a pair: the answer is whether the key was there. -/
theorem keeps (hp : LeafParent h key parent leaf n l) (hne : l.mList.nodes ≠ [])
    (hmore : l.mList.nodes.map Prod.fst ≠ [key]) :
    ∃ h', Returns (fun fuel => baseDeleteKey fuel h parent key)
      (h', (l.mList.nodes.lookup key).isSome) := by
  obtain ⟨l', hleads⟩ := hp.leads hne
  refine ⟨h.write leaf (.leaf l'), hleads.returns ⟨0, fun fuel _ => ?_⟩⟩
  have hlen : (remove key l.mList.nodes).length ≠ 0 := fun hzero =>
    hmore (map_fst_eq_of_remove hp.sorted hne hzero)
  simp only [if_neg hlen]
  by_cases hin : (l.mList.nodes.lookup key).isSome = true
  · rw [if_pos hin, hin]
  · rw [if_neg hin, Bool.eq_false_iff.mpr hin]

/-- The leaf of the key alone. -/
theorem only (hnodes : l.mList.nodes.map Prod.fst = [key]) : l.mList.nodes ≠ [] ∧
    (l.mList.nodes.lookup key).isSome = true ∧ (remove key l.mList.nodes).length = 0 := by
  obtain ⟨q, hq, rfl⟩ : ∃ q : K × V, l.mList.nodes = [q] ∧ q.1 = key := by
    cases hl : l.mList.nodes with
    | nil => simp [hl] at hnodes
    | cons q rest =>
      simp only [hl, List.map_cons, List.cons.injEq, List.map_eq_nil_iff] at hnodes
      exact ⟨q, by rw [hnodes.2], hnodes.1⟩
  rw [hq]
  refine ⟨by simp, by rw [lookup_cons_pair, if_pos rfl]; rfl, ?_⟩
  rw [remove_cons_self (List.pairwise_singleton _ _)]
  rfl

/-- The lesser leaf is emptied: the answer is that the key was not there. -/
theorem lesser (hp : LeafParent h key parent leaf n l)
    (hnodes : l.mList.nodes.map Prod.fst = [key]) (hlesser : n.mLesser = leaf) :
    ∃ h', Returns (fun fuel => baseDeleteKey fuel h parent key) (h', false) := by
  obtain ⟨hne, hin, hlen⟩ := only hnodes
  obtain ⟨l', hleads⟩ := hp.leads hne
  refine ⟨h.write leaf (.leaf l'), hleads.returns ⟨0, fun fuel _ => ?_⟩⟩
  simp only [if_pos hin, if_pos hlen, if_pos hlesser]

section Child

variable (hp : LeafParent h key parent leaf n l) (hnodes : l.mList.nodes.map Prod.fst = [key])
  (hlesser : n.mLesser ≠ leaf)

include hp hnodes hlesser

/-- Another leaf is emptied: `delete_child` is called. -/
theorem child : ∃ l' : Leaf K V,
    (h.write leaf (.leaf l')).read parent = some (.internal n) ∧
    (∀ a (m : ListNode K), (h.write leaf (.leaf l')).read a = some (.listNode m) ↔
      h.read a = some (.listNode m)) ∧
    Leads (fun fuel => baseDeleteKey fuel h parent key) (fun fuel =>
      deleteChild fuel (h.write leaf (.leaf l')) parent key >>= fun h' => .ok (h', true)) := by
  obtain ⟨hne, hin, hlen⟩ := only hnodes
  obtain ⟨l', hleads⟩ := hp.leads hne
  simp only [if_pos hin, if_pos hlen, if_neg hlesser] at hleads
  refine ⟨l', ?_, read_listNode_writeLeaf hp.leafCell, hleads⟩
  rw [CellStore.read_write_of_ne hp.apart, hp.cell]

theorem child_ends (hfound : ChildFound h n key) :
    Ends (fun fuel => baseDeleteKey fuel h parent key) := by
  obtain ⟨l', hcell, hsame, hleads⟩ := hp.child hnodes hlesser
  rcases deleteChild_ends hcell (hfound.congr hsame) with ⟨h', hrun⟩ | ⟨e, hrun⟩
  · exact Or.inl ⟨_, hleads.returns (Returns.bind hrun (Returns.const rfl))⟩
  · exact Or.inr ⟨e, hleads.faults (hrun.bind _)⟩

theorem child_starves (hnot : ¬ ChildFound h n key) :
    Starves (fun fuel => baseDeleteKey fuel h parent key) := by
  obtain ⟨l', hcell, hsame, hleads⟩ := hp.child hnodes hlesser
  refine hleads.starves ((deleteChild_starves hcell fun hf => hnot ?_).bind _)
  exact hf.congr fun a m => (hsame a m).symm

theorem child_returns (hlist : ListFor h n key) (hfound : ChildFound h n key) :
    ∃ h', Returns (fun fuel => baseDeleteKey fuel h parent key) (h', true) := by
  obtain ⟨l', hcell, hsame, hleads⟩ := hp.child hnodes hlesser
  obtain ⟨e, es, tail, hl, hnd, htail⟩ := hlist
  have hl' : Linked (h.write leaf (.leaf l')) n.mRoot (e :: es) tail := by
    refine hl.frame fun f hf => ?_
    obtain ⟨next, hread⟩ := hl.read_of_mem hf
    rw [hread, (hsame f.node _).mpr hread]
  have htail' : Stranger (h.write leaf (.leaf l')) key tail := by
    intro a ha
    obtain ⟨m, hm, hother⟩ := htail a ha
    exact ⟨m, (hsame a m).mpr hm, hother⟩
  obtain ⟨h', hrun⟩ := deleteChild_returns hcell hl' hnd htail' (hfound.congr hsame)
  exact ⟨h', hleads.returns (Returns.bind hrun (Returns.const rfl))⟩

end Child

end LeafParent

/-! ## Trees -/

/-- What holds where `delete_key` of the key comes to: of the node above the leaf, of the
address of the leaf and of the leaf. -/
def AtLeaf (t : Tree K V) (key : K) (P : Internal → Nat → Leaf K V → Prop) : Prop :=
  ∀ root, t.mRoot = some root → ∃ parent leaf n l,
    Returns (fun fuel => findLeaf fuel t.heap root key) (parent, leaf) ∧
    derefInternal t.heap parent = .ok n ∧ derefLeaf t.heap leaf = .ok l ∧ P n leaf l

theorem atLeaf_iff {t : Tree K V} {key : K} {P : Internal → Nat → Leaf K V → Prop}
    {root parent leaf : Nat} {n : Internal} {l : Leaf K V} (hroot : t.mRoot = some root)
    (hp : LeafParent t.heap key parent leaf n l)
    (hfind : Returns (fun fuel => findLeaf fuel t.heap root key) (parent, leaf)) :
    AtLeaf t key P ↔ P n leaf l := by
  constructor
  · intro hat
    obtain ⟨parent', leaf', n', l', hfind', hn', hl', hP⟩ := hat root hroot
    obtain ⟨rfl, rfl⟩ := Prod.mk.inj (hfind.unique hfind')
    obtain rfl := Outcome.ok.inj ((derefInternal_eq hp.cell).symm.trans hn')
    obtain rfl := Outcome.ok.inj ((derefLeaf_eq hp.leafCell).symm.trans hl')
    exact hP
  · intro hP root' hroot'
    obtain rfl := Option.some.inj (hroot.symm.trans hroot')
    exact ⟨parent, leaf, n, l, hfind, derefInternal_eq hp.cell, derefLeaf_eq hp.leafCell, hP⟩

/-- `delete_key` of a tree does what is done at the node above the leaf. -/
theorem IsRoot.exists_leafParent (hcfg : cfg.Admissible) {t : Tree K V} {root d : Nat}
    {s : Span K V} {entries : List (K × V)} (hroot : t.mRoot = some root)
    (hr : IsRoot cfg Q t.heap root entries d s) (key : K) :
    ∃ parent leaf n l, LeafParent t.heap key parent leaf n l ∧ ListFor t.heap n key ∧
      Returns (fun fuel => findLeaf fuel t.heap root key) (parent, leaf) ∧
      Leads (fun fuel => t.deleteKey fuel key) (fun fuel => do
        let r ← baseDeleteKey fuel t.heap parent key
        .ok (⟨r.1, some root⟩, r.2)) ∧
      entries.lookup key = l.mList.nodes.lookup key := by
  obtain ⟨parent, leaf, n, l, hp, hlist, hfind, ⟨more, bound, hleads⟩, hlookup⟩ :=
    hr.node.exists_leafParent hcfg hr.nodup key bot_le (WithTop.coe_lt_top key)
  refine ⟨parent, leaf, n, l, hp, hlist, hfind, ⟨more, bound, ?_⟩, hr.entries ▸ hlookup⟩
  intro fuel hfuel
  obtain ⟨nr, seps, tail, spans, hnr, -⟩ := hr.node
  have hpos : nr.mSize ≠ 0 := by
    rw [hnr.size]
    intro hzero
    exact hnr.nonempty (List.length_eq_zero_iff.mp hzero)
  have hsame : baseDeleteKey (fuel + more) t.heap root key = baseDeleteKey fuel t.heap parent key :=
    hleads fuel hfuel
  simp only [Tree.deleteKey, hroot, hsame]
  cases hrun : baseDeleteKey fuel t.heap parent key with
  | fault e => rfl
  | outOfFuel => rfl
  | ok r =>
    rw [hrun] at hsame
    obtain ⟨n', hn', hsize⟩ := (baseDeleteKey_steps hsame).internal hnr.cell
    simp [baseSize, hn', hsize, hpos]

end StateDb.Bpt
