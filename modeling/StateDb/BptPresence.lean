/-
  StateDb/BptPresence.lean
  ========================
  **What `delete_key` says** (`bpt.h`, `bpt_internal.h`).

  In a tree that was only set into, `delete_key` returns whether the key was there when
  its leaf keeps a pair, and when the leaf that it empties is found by `delete_child`.  It
  meets a null pointer in an empty leaf, and returns `false` for the last key of a lesser
  leaf (`set_run_presence_iff`).
-/
import StateDb.BptDeleteChild

namespace StateDb.Bpt

open Lib Lib.SortedAssoc

variable {K V : Type} [LinearOrder K] {cfg : Config} {Q : LeafPolicy K V}

/-- The two trees answer alike. -/
structure AnswersAlike (t t' : Tree K V) : Prop where
  get : ∀ key a, Returns (fun fuel => t.get fuel key) a ↔ Returns (fun fuel => t'.get fuel key) a
  iterate : ∀ es, Returns (fun fuel => t.iterate fuel) es ↔ Returns (fun fuel => t'.iterate fuel) es

/-- `delete_key` returns whether the key is stored, and changes no answer when it is not. -/
def ReportsPresence (t : Tree K V) (key : K) (stored : Bool) : Prop :=
  ∃ t' b, Returns (fun fuel => t.deleteKey fuel key) (t', b) ∧ b = stored ∧
    (stored = false → AnswersAlike t t')

/-- The leaf of the key holds a pair; and when it holds no other key, it is no lesser leaf, and
`delete_child` finds it. -/
def FindsPresent (t : Tree K V) (key : K) : Prop :=
  AtLeaf t key fun n leaf l => l.mList.nodes ≠ [] ∧
    (l.mList.nodes.map Prod.fst = [key] → n.mLesser ≠ leaf ∧ ChildFound t.heap n key)

theorem returns_iff_of_returns {α : Type} {f g : Nat → Outcome Fault α} {a : α} (hf : Returns f a)
    (hg : Returns g a) (b : α) : Returns f b ↔ Returns g b := by
  constructor
  · intro h
    exact hf.unique h ▸ hg
  · intro h
    exact hg.unique h ▸ hf

theorem IsTree.answersAlike {t t' : Tree K V} {entries : List (K × V)} (ht : IsTree cfg Q t entries)
    (ht' : IsTree cfg Q t' entries) : AnswersAlike t t' where
  get key a := returns_iff_of_returns (Tree.get_spec ht key) (Tree.get_spec ht' key) a
  iterate es := returns_iff_of_returns (Tree.iterate_spec ht) (Tree.iterate_spec ht') es

theorem Tree.reportsPresence_iff (hcfg : cfg.Admissible) {t : Tree K V} {entries : List (K × V)}
    (ht : IsTree cfg LeafPolicy.any t entries) (key : K) :
    ReportsPresence t key (entries.lookup key).isSome ↔ FindsPresent t key := by
  rcases id ht with ⟨hroot, rfl⟩ | ⟨root, d, s, hroot, hr⟩
  · refine iff_of_true ⟨t, false, ⟨0, fun fuel _ => ?_⟩, rfl, fun _ => ht.answersAlike ht⟩ ?_
    · simp only [Tree.deleteKey, hroot]
    · intro root hsome
      rw [hroot] at hsome
      cases hsome
  · obtain ⟨parent, leaf, n, l, hp, hlist, hfind, hleads, hlookup⟩ :=
      hr.exists_leafParent hcfg hroot key
    rw [FindsPresent, atLeaf_iff hroot hp hfind, hlookup]
    by_cases hnil : l.mList.nodes = []
    · -- the list of an empty leaf has no first node
      refine iff_of_false ?_ fun h => h.1 hnil
      rintro ⟨t', b, hrun, -⟩
      exact (hleads.faults ((hp.faults hnil).bind _)).not_returns _ hrun
    by_cases honly : l.mList.nodes.map Prod.fst = [key]
    · have hin := (LeafParent.only honly).2.1
      by_cases hlesser : n.mLesser = leaf
      · refine iff_of_false ?_ fun h => (h.2 honly).1 hlesser
        rintro ⟨t', b, hrun, hb, -⟩
        obtain ⟨h', hfalse⟩ := hp.lesser honly hlesser
        have hanswer := hrun.unique (hleads.returns (Returns.bind hfalse (Returns.const rfl)))
        rw [hb, hin] at hanswer
        cases hanswer
      · constructor
        · rintro ⟨t', b, hrun, -⟩
          refine ⟨hnil, fun _ => ⟨hlesser, ?_⟩⟩
          by_contra hmiss
          have hstarves := hleads.starves ((hp.child_starves honly hlesser hmiss).bind _)
          exact hstarves.not_ends (Or.inl ⟨_, hrun⟩)
        · intro h
          obtain ⟨h', hrun⟩ := hp.child_returns honly hlesser hlist (h.2 honly).2
          refine ⟨_, true, hleads.returns (Returns.bind hrun (Returns.const rfl)), hin.symm, ?_⟩
          intro habsent
          rw [hin] at habsent
          cases habsent
    · refine iff_of_true ?_ ⟨hnil, fun h => absurd h honly⟩
      obtain ⟨h', hrun⟩ := hp.keeps hnil honly
      have hrun' := hleads.returns (Returns.bind hrun (Returns.const rfl))
      refine ⟨_, _, hrun', rfl, ?_⟩
      intro habsent
      -- the key is not there: the entries stay
      have hsafe : SafeDelete t key := by
        intro root' hroot'
        obtain rfl := Option.some.inj (hroot.symm.trans hroot')
        exact ⟨parent, leaf, n, l, hfind, derefInternal_eq hp.cell, derefLeaf_eq hp.leafCell, hnil,
          fun h => absurd h honly⟩
      obtain ⟨t', b, hspec, ht'⟩ := Tree.deleteKey_spec hcfg ht hsafe
      obtain ⟨rfl, -⟩ := Prod.mk.inj (hspec.unique hrun')
      have hnone : entries.lookup key = none := by
        rw [hlookup]
        exact Option.not_isSome_iff_eq_none.mp (by simp [habsent])
      have hsame : remove key entries = entries := by
        refine remove_eq_self ?_
        intro q hq heq
        have := List.lookup_eq_none_iff.mp hnone q hq
        simp [heq] at this
      rw [hsame] at ht'
      exact ht.answersAlike ht'

/-- After any sequence of `set` calls, `delete_key` returns whether the key is stored just when
its leaf holds a pair, and is found when it holds no other. -/
theorem set_run_presence_iff (o : Order) (calls : List (K × V)) :
    ∃ t, Returns (fun fuel => Tree.setAll o.config fuel calls {}) t ∧
      ∀ key, ReportsPresence t key (lastSet calls key).isSome ↔ FindsPresent t key := by
  obtain ⟨t, hrun, ht⟩ := Tree.setAll_spec (Q := LeafPolicy.any) o.admissible calls isTree_empty
  refine ⟨t, hrun, ?_⟩
  intro key
  have hiff := Tree.reportsPresence_iff o.admissible ht key
  rw [lookup_setEntries] at hiff
  simpa using hiff

/-- The key below the first one is alone in the lesser leaf: it is deleted, and `delete_key`
returns `false`. -/
theorem delete_lesser_key_not_reported :
    ∃ t t' : Tree Nat Nat,
      Returns (fun fuel => Tree.setAll Order.six.config fuel [(5, 50), (3, 30)] {}) t ∧
      Returns (fun fuel => t.get fuel 3) (some 30) ∧
      Returns (fun fuel => t.deleteKey fuel 3) (t', false) ∧
      ¬ ReportsPresence t 3 (lastSet [(5, 50), (3, 30)] 3).isSome := by
  let tree : List (Nat × Nat) → Tree Nat Nat := fun nodes =>
    ⟨⟨[some (.leaf ⟨none, ⟨[(5, 50)], 1⟩⟩), some (.listNode ⟨5, 0, none⟩),
      some (.leaf ⟨some 0, ⟨nodes, nodes.length⟩⟩), some (.internal ⟨2, some 1, 1⟩)]⟩, some 3⟩
  have hdelete : Returns (fun fuel => (tree [(3, 30)]).deleteKey fuel 3) (tree [], false) := by
    refine ⟨2, ?_⟩
    intro fuel hfuel
    obtain ⟨k, rfl⟩ : ∃ k, fuel = k + 2 := ⟨fuel - 2, by omega⟩
    rfl
  refine ⟨tree [(3, 30)], tree [], ⟨2, ?_⟩, ⟨2, ?_⟩, hdelete, ?_⟩
  · intro fuel hfuel
    obtain ⟨k, rfl⟩ : ∃ k, fuel = k + 2 := ⟨fuel - 2, by omega⟩
    rfl
  · intro fuel hfuel
    obtain ⟨k, rfl⟩ : ∃ k, fuel = k + 2 := ⟨fuel - 2, by omega⟩
    rfl
  · rintro ⟨t', b, hrun, hb, -⟩
    have hanswer := (Prod.mk.inj (hrun.unique hdelete)).2
    rw [hb] at hanswer
    cases hanswer

end StateDb.Bpt
