/-
  StateDb/BptApart.lean
  =====================
  **Runs that what fresh memory held tells apart** (`list.h`: `m_size`; `leaf.h`, `bpt_internal.h`).

  Two trees whose memory does not agree (`MemoryAgrees`) are told apart by a few calls: a counter
  that is too small comes to zero while there are pairs left; one that is too large does not, or
  splits the leaf too early, or where there is nothing to split.  So the runs are the same for
  every sequence of calls if and only if the memory agrees (`sameRuns_iff`).
-/
import StateDb.BptLeafRuns
import Mathlib.Data.Finset.Sort

namespace StateDb.Bpt

open Lib Lib.SortedAssoc

variable {K V : Type} [LinearOrder K]

/-! ## What tells two first leaves apart -/

/-- The tree of the first pair. -/
theorem goes_first (cfg : Config) (k : K) (val : V) :
    Goes cfg {} [.set k val] (firstTree k ⟨none, ⟨pairsOf val [k], sizeInc (cfg.staleSize 0)⟩⟩
      ⟨some 0, ⟨pairsOf val [], cfg.staleSize 2⟩⟩) [.done] :=
  .one fun _ => rfl

section First

variable {cfg : Config} {k k' : K} {val : V} {ks : List K}

/-- The same pair again: a leaf that counts too many is split. -/
theorem again_goes (htwo : 2 ≤ cfg.maxSize) (hfits : sizeInc (cfg.staleSize 0) ≤ cfg.maxSize) :
    ∃ t, Goes cfg {} [.set k val, .set k val] t [.done, .done] := by
  have hset := LeafList.set_again k val (sizeInc (cfg.staleSize 0))
  exact ⟨_, (goes_first cfg k val).append
    (.one ((firstTree_first k _).set_fits htwo (le_refl k) hset hfits))⟩

theorem again_stuck (htwo : 2 ≤ cfg.maxSize) (hfull : cfg.maxSize < sizeInc (cfg.staleSize 0)) :
    Stuck cfg {} [.set k val, .set k val] := by
  have hset := LeafList.set_again k val (sizeInc (cfg.staleSize 0))
  refine (goes_first cfg k val).stuck ?_
  exact (firstTree_first k _).set_beyond htwo (le_refl k) hset hfull (htwo.trans hfull.le)

section Second

variable (hlt : k < k')

include hlt

theorem second_goes (val : V) (htwo : 2 ≤ cfg.maxSize)
    (hfits : sizeInc (sizeInc (cfg.staleSize 0)) ≤ cfg.maxSize) :
    Goes cfg {} [.set k val, .set k' val]
      (firstTree k ⟨none, ⟨pairsOf val [k, k'], sizeInc (sizeInc (cfg.staleSize 0))⟩⟩
        ⟨some 0, ⟨pairsOf val [], cfg.staleSize 2⟩⟩) [.done, .done] :=
  (goes_first cfg k val).append
    (.one ((firstTree_first k _).set_fits htwo hlt.le (LeafList.set_second hlt val _) hfits))

theorem second_stuck (htwo : 2 ≤ cfg.maxSize)
    (hfull : cfg.maxSize < sizeInc (sizeInc (cfg.staleSize 0)))
    (hfour : 4 ≤ sizeInc (sizeInc (cfg.staleSize 0))) :
    Stuck cfg {} [.set k val, .set k' val] :=
  (goes_first cfg k val).stuck
    ((firstTree_first k _).set_beyond htwo hlt.le (LeafList.set_second hlt val _) hfull hfour)

end Second

section Emptied

variable {next : Option Nat} {lesser : Leaf K V} {size : Nat}

/-- The first key goes, and the counter is zero: the tree is left without a separator. -/
theorem emptied_stuck (hzero : sizeDec size = 0) :
    Stuck cfg (firstTree k ⟨next, ⟨pairsOf val (k :: ks), size⟩⟩ lesser) [.delete k, .get k] := by
  have hdelete := LeafList.deleteKey_head k ks val size
  have hchild := (firstTree_first k lesser).delete_child (l := ⟨next, _⟩) cfg (by decide)
    (le_refl k) hdelete hzero
  have hrun (fuel : Nat) : deleteChild (fuel + 2)
      (firstTree k ⟨next, ⟨pairsOf val ks, sizeDec size⟩⟩ lesser).heap 3 k =
      .ok ⟨[some (.leaf ⟨next, ⟨pairsOf val ks, sizeDec size⟩⟩), none, some (.leaf lesser),
        some (.internal ⟨2, none, 1⟩)]⟩ := by
    show (if k = k then _ else _) = _
    rw [if_pos rfl]
    rfl
  have hgone : Goes cfg (firstTree k ⟨next, ⟨pairsOf val (k :: ks), size⟩⟩ lesser) [.delete k]
      ⟨⟨[some (.leaf ⟨next, ⟨pairsOf val ks, sizeDec size⟩⟩), none, some (.leaf lesser),
        some (.internal ⟨2, none, 1⟩)]⟩, some 3⟩ [.deleted true] := by
    refine .one fun fuel => (hchild fuel).trans ?_
    rw [hrun]
    rfl
  exact hgone.stuck (.one fun fuel r hget => by cases hget)

theorem kept_goes (hne : sizeDec size ≠ 0) (hnotin : k ∉ ks) :
    ∃ t, Goes cfg (firstTree k ⟨next, ⟨pairsOf val (k :: ks), size⟩⟩ lesser) [.delete k, .get k] t
      [.deleted true, .found none] := by
  have hole := firstTree_first k lesser
  have hdelete := hole.delete_keeps (l := ⟨next, _⟩) cfg (le_refl k)
    (LeafList.deleteKey_head k ks val size) hne
  have hget := hole.get (l := ⟨next, ⟨pairsOf val ks, sizeDec size⟩⟩) cfg (le_refl k)
  have hnone : (⟨pairsOf val ks, sizeDec size⟩ : LeafList K V).getValPtr k = none := by
    refine lookup_eq_none fun p hp => ?_
    obtain ⟨k₁, hk₁, rfl⟩ := List.mem_map.mp hp
    exact fun heq => hnotin (heq ▸ hk₁)
  rw [hnone] at hget
  exact ⟨_, .cons hdelete (.one hget)⟩

end Emptied

/-- The only key goes, and what the memory held is left in the counter. -/
theorem zero_stuck (hzero : cfg.staleSize 0 = 0) :
    Stuck cfg {} [.set k val, .delete k, .get k] := by
  have hsize : sizeDec (sizeInc (cfg.staleSize 0)) = 0 := by rw [hzero]; rfl
  exact (goes_first cfg k val).stuck (emptied_stuck hsize)

theorem nonzero_goes (hne : cfg.staleSize 0 ≠ 0) (hmod : cfg.staleSize 0 < sizeMod) :
    ∃ t, Goes cfg {} [.set k val, .delete k, .get k] t [.done, .deleted true, .found none] := by
  have hsize : sizeDec (sizeInc (cfg.staleSize 0)) ≠ 0 := (sizeDec_sizeInc hmod).symm ▸ hne
  obtain ⟨t, hgo⟩ := @kept_goes K V _ cfg k val [] none
    ⟨some 0, ⟨pairsOf val [], cfg.staleSize 2⟩⟩ _ hsize List.not_mem_nil
  exact ⟨t, (goes_first cfg k val).append hgo⟩

/-- One of two keys goes. -/
theorem second_zero_stuck (hlt : k < k') (htwo : 2 ≤ cfg.maxSize)
    (hzero : sizeInc (cfg.staleSize 0) = 0) :
    Stuck cfg {} [.set k val, .set k' val, .delete k, .get k] := by
  have hone : sizeInc (sizeInc (cfg.staleSize 0)) = 1 := by rw [hzero]; rfl
  have hgo := second_goes hlt val htwo (by omega)
  rw [hone] at hgo
  exact hgo.stuck (emptied_stuck rfl)

theorem second_nonzero_goes (hlt : k < k') (htwo : 2 ≤ cfg.maxSize)
    (hfits : sizeInc (sizeInc (cfg.staleSize 0)) ≤ cfg.maxSize)
    (hne : sizeInc (cfg.staleSize 0) ≠ 0) :
    ∃ t, Goes cfg {} [.set k val, .set k' val, .delete k, .get k] t
      [.done, .done, .deleted true, .found none] := by
  have hsize : sizeDec (sizeInc (sizeInc (cfg.staleSize 0))) ≠ 0 :=
    (sizeDec_sizeInc (sizeInc_lt _)).symm ▸ hne
  obtain ⟨t, hgo⟩ := @kept_goes K V _ cfg k val [k'] none
    ⟨some 0, ⟨pairsOf val [], cfg.staleSize 2⟩⟩ _ hsize fun hk => hlt.ne (List.mem_singleton.mp hk)
  exact ⟨t, (second_goes hlt val htwo hfits).append hgo⟩

/-- With `max_size` 2, a leaf that counts one pair too many is split in two; the left half goes with
its only key. -/
theorem cut_goes (hlt : k < k') (hmax : cfg.maxSize = 2) (hone : cfg.staleSize 0 = 1) :
    ∃ t, Goes cfg {} [.set k val, .set k' val, .delete k, .get k] t
      [.done, .done, .deleted true, .found none] := by
  obtain ⟨lesser, hlesser⟩ : ∃ l : Leaf K V, l = ⟨some 0, ⟨pairsOf val [], cfg.staleSize 2⟩⟩ :=
    ⟨_, rfl⟩
  obtain ⟨right, hright⟩ : ∃ l : Leaf K V, l = ⟨none, ⟨pairsOf val [k'], 2⟩⟩ := ⟨_, rfl⟩
  have hfirst := goes_first cfg k val
  rw [hone, ← hlesser] at hfirst
  have hcut (fuel : Nat) : Tree.access cfg (fuel + 3)
      (firstTree k ⟨none, ⟨pairsOf val [k], 2⟩⟩ lesser)
      (.set k' val) = .ok (cutTree k k' ⟨some 4, ⟨pairsOf val [k], 1⟩⟩ right lesser, .done) := by
    have hset : (⟨pairsOf val [k], 2⟩ : LeafList K V).set k' val = ⟨pairsOf val [k, k'], 3⟩ :=
      LeafList.set_second hlt val 2
    have hfull : cfg.maxSize < (⟨pairsOf val [k, k'], 3⟩ : LeafList K V).size := by
      show cfg.maxSize < 3
      omega
    rw [hright]
    exact set_cutTree hmax.ge hset hfull (LeafList.split_two k k' val) hlt.le hlt fuel
  have hdelete := (cutTree_left k k' right lesser).delete_child
    (l := ⟨some 4, _⟩) cfg (by decide) ⟨le_refl k, hlt⟩
    (LeafList.deleteKey_head k [] val 1) rfl
  obtain ⟨h, hh⟩ : ∃ h : Heap K V, h = ⟨[some (.leaf ⟨some 4, ⟨pairsOf val [], sizeDec 1⟩⟩), none,
      some (.leaf lesser), some (.internal ⟨2, some 5, 2⟩), some (.leaf right),
      some (.listNode ⟨k', 4, none⟩)]⟩ := ⟨_, rfl⟩
  have hchild (fuel : Nat) : deleteChild (fuel + 2)
      (cutTree k k' ⟨some 4, ⟨pairsOf val [], sizeDec 1⟩⟩ right lesser).heap 3 k = .ok h := by
    show (if k = k then _ else _) = _
    rw [if_pos rfl, hh]
    rfl
  have hgone (fuel : Nat) : Tree.access cfg (fuel + 3)
      (cutTree k k' ⟨some 4, ⟨pairsOf val [k], 1⟩⟩ right lesser) (.delete k) =
      .ok (⟨h, some 3⟩, .deleted true) := by
    refine (hdelete fuel).trans ?_
    rw [hchild, hh]
    rfl
  have hget (fuel : Nat) : Tree.access cfg (fuel + 3) ⟨h, some 3⟩ (.get k) =
      .ok (⟨h, some 3⟩, .found none) := by
    simp only [Tree.access, Tree.get, getValPtr, hh]
    show (((if k < k' then Outcome.ok 2 else _) >>= _) >>= _) = _
    rw [if_pos hlt, hlesser]
    rfl
  exact ⟨_, (hfirst.append (.one hcut)).append (.cons hgone (.one hget))⟩

section Ascending

theorem ascending_goes (val : V) (htwo : 2 ≤ cfg.maxSize) (hmax : cfg.maxSize < sizeMod)
    (hasc : (k :: ks).Pairwise (· < ·)) (hfits : cfg.staleSize 0 + 1 + ks.length ≤ cfg.maxSize) :
    Goes cfg {} (sets val (k :: ks))
      (firstTree k ⟨none, ⟨pairsOf val (k :: ks), cfg.staleSize 0 + 1 + ks.length⟩⟩
        ⟨some 0, ⟨pairsOf val [], cfg.staleSize 2⟩⟩) ((k :: ks).map fun _ => .done) := by
  have hfirst := goes_first cfg k val
  rw [sizeInc_of_lt (by omega)] at hfirst
  have hrouted (k₁ : K) (hk₁ : k₁ ∈ ks) : k ≤ k₁ := ((List.pairwise_cons.mp hasc).1 k₁ hk₁).le
  exact hfirst.append ((firstTree_first k _).goes_sets htwo hasc hrouted hfits hmax)

/-- Some keys go again: as long as the leaf was not split, nothing happens to it. -/
theorem ascending_keeps (htwo : 2 ≤ cfg.maxSize) (hmax : cfg.maxSize < sizeMod)
    (hasc : (k :: ks).Pairwise (· < ·)) (hne : cfg.staleSize 0 ≠ 0)
    (hfits : cfg.staleSize 0 + 1 + ks.length ≤ cfg.maxSize) (half : Nat) :
    ∃ t rs, Goes cfg {} (sets val (k :: ks) ++ deletes ((k :: ks).take half)) t rs := by
  have hgo := ascending_goes val htwo hmax hasc hfits
  have hlen : ((k :: ks).take half).length ≤ ks.length + 1 := List.length_take_le' _ _
  obtain ⟨size, hsize⟩ : ∃ size,
      cfg.staleSize 0 + 1 + ks.length = size + ((k :: ks).take half).length :=
    ⟨cfg.staleSize 0 + 1 + ks.length - ((k :: ks).take half).length, by omega⟩
  have hrouted (k₁ : K) (hk₁ : k₁ ∈ (k :: ks).take half) : k ≤ k₁ := by
    rcases List.mem_cons.mp (List.mem_of_mem_take hk₁) with rfl | hk₁
    · exact le_refl k₁
    · exact ((List.pairwise_cons.mp hasc).1 k₁ hk₁).le
  have hdeletes := @LeafHole.goes_deletes K V _ _ _ _ _ _
    (firstTree_first k ⟨some 0, ⟨pairsOf val [], cfg.staleSize 2⟩⟩) cfg none val _
    ((k :: ks).drop half) hrouted size (by omega) (by omega)
  rw [List.take_append_drop, ← hsize] at hdeletes
  exact ⟨_, _, hgo.append hdeletes⟩

/-- The keys of the left half go.  With the last one, `delete_child` looks for its key among the
separators for ever. -/
theorem cutTree_stuck {init : List K} {last key' : K}
    (hasc : ((k :: init) ++ [last] ++ [key']).Pairwise (· < ·))
    (hlt : (k :: init).length + 1 < sizeMod)
    (next : Option Nat) (right lesser : Leaf K V) :
    Stuck cfg (cutTree k key'
      ⟨next, ⟨pairsOf val ((k :: init) ++ [last]), 1 + (k :: init).length⟩⟩ right lesser)
      (deletes ((k :: init) ++ [last])) := by
  obtain ⟨hkeys, -, hbelow⟩ := List.pairwise_append.mp hasc
  obtain ⟨-, -, hlast⟩ := List.pairwise_append.mp hkeys
  have hrouted (k₁ : K) (hk₁ : k₁ ∈ (k :: init) ++ [last]) : k ≤ k₁ ∧ k₁ < key' := by
    refine ⟨?_, hbelow k₁ hk₁ key' List.mem_cons_self⟩
    rcases List.mem_cons.mp hk₁ with rfl | hk₁
    · exact le_refl k₁
    · exact ((List.pairwise_cons.mp hkeys).1 k₁ hk₁).le
  have hole := cutTree_left k key' right lesser
  have hdeletes := @LeafHole.goes_deletes K V _ _ _ _ _ _ hole cfg next val (k :: init) [last]
    (fun k₁ hk₁ => hrouted k₁ (List.mem_append_left _ hk₁)) 1 (by decide) (by omega)
  rw [deletes_concat]
  refine hdeletes.stuck (.one fun fuel r hrun => ?_)
  have hloop : deleteChild (fuel + 2)
      (cutTree k key' ⟨next, ⟨pairsOf val [], sizeDec 1⟩⟩ right lesser).heap 3 last =
        .outOfFuel := by
    show (if k = last then _ else deleteChildLoop (fuel + 2) _ 1 last) = _
    rw [if_neg (hlast k List.mem_cons_self last List.mem_cons_self).ne]
    exact deleteChildLoop_stays rfl rfl rfl (hbelow last (by simp) key' List.mem_cons_self).ne' _
  have hchild := hole.delete_child (l := ⟨next, _⟩) cfg (by decide)
    (hrouted last (by simp)) (LeafList.deleteKey_head last [] val 1) rfl fuel
  rw [hloop] at hchild
  cases hrun.symm.trans hchild

/-- The leaf is split at the last key.  When the last pair of the left half goes, `delete_child`
looks for its key among the separators for ever; and when there is no right half, the last `set`
comes to a null pointer. -/
theorem ascending_stuck (hthree : 3 ≤ cfg.maxSize) (hmax : cfg.maxSize + 1 < sizeMod)
    (hasc : (k :: ks).Pairwise (· < ·)) (hne : ks ≠ [])
    (hsize : cfg.staleSize 0 + ks.length = cfg.maxSize) :
    Stuck cfg {} (sets val (k :: ks) ++ deletes ((k :: ks).take ((cfg.maxSize + 1) / 2))) := by
  obtain ⟨ks₀, kl, rfl⟩ := (List.eq_nil_or_concat' ks).resolve_left hne
  rw [List.length_append, List.length_singleton] at hsize
  have hasc₀ : ((k :: ks₀) ++ [kl]).Pairwise (· < ·) := hasc
  have hkl : k ≤ kl := ((List.pairwise_cons.mp hasc).1 kl (by simp)).le
  have hfits : cfg.staleSize 0 + 1 + ks₀.length = cfg.maxSize := by omega
  have hgo := ascending_goes val (by omega) (by omega) (List.pairwise_append.mp hasc₀).1 hfits.le
  have hset := LeafList.set_last hasc₀ val cfg.maxSize
  rw [sizeInc_of_lt hmax] at hset
  rw [hfits] at hgo
  have hsets : sets val (k :: (ks₀ ++ [kl])) = sets val (k :: ks₀) ++ [.set kl val] :=
    sets_concat val (k :: ks₀) kl
  rw [hsets]
  by_cases hlt : (cfg.maxSize + 1) / 2 < ((k :: ks₀) ++ [kl]).length
  · obtain ⟨init, last, key', rest, hks, hlen, hsplit⟩ :=
      LeafList.split_pairsOf rfl (by omega) hlt val
    obtain ⟨init, rfl⟩ : ∃ init₁, init = k :: init₁ := by
      cases init with
      | nil =>
        rw [List.length_nil] at hlen
        omega
      | cons k₁ init => exact ⟨init, by rw [(List.cons.inj hks).1]⟩
    have hleft : (k :: (ks₀ ++ [kl])).take ((cfg.maxSize + 1) / 2) = (k :: init) ++ [last] := by
      rw [← List.cons_append, hks, List.append_assoc _ [key'] rest]
      exact List.take_left' (by rw [List.length_append, List.length_singleton]; omega)
    rw [hks] at hasc₀
    have hascCut : ((k :: init) ++ [last] ++ [key']).Pairwise (· < ·) :=
      (List.pairwise_append.mp hasc₀).1
    have hkey' : k < key' :=
      (List.pairwise_append.mp hascCut).2.2 k List.mem_cons_self key' List.mem_cons_self
    have hset' := hgo.append (.one
      (set_cutTree (by omega) hset (Nat.lt_succ_self _) hsplit hkl hkey'))
    rw [hleft]
    exact hset'.stuck (cutTree_stuck hascCut (by omega) _ _ _)
  · refine ((hgo.stuck ?_)).append _
    refine (firstTree_first k _).set_beyond (by omega) hkl hset (Nat.lt_succ_self _) ?_
    simp only [pairsOf, List.length_map]
    omega

end Ascending

end First

/-! ## What tells two lesser leaves apart -/

section Lesser

variable {cfg : Config} {k k₀ k₁ : K} {val : V} {ks : List K}

/-- A key below the first one. -/
theorem lesser_goes (val : V) (htwo : 2 ≤ cfg.maxSize) (hk₀ : k₀ < k)
    (hfits : sizeInc (cfg.staleSize 2) ≤ cfg.maxSize) :
    Goes cfg {} [.set k val, .set k₀ val]
      (firstTree k ⟨none, ⟨pairsOf val [k], sizeInc (cfg.staleSize 0)⟩⟩
        ⟨some 0, ⟨pairsOf val [k₀], sizeInc (cfg.staleSize 2)⟩⟩) [.done, .done] :=
  (goes_first cfg k val).append (.one ((firstTree_lesser k _).set_fits htwo hk₀ rfl hfits))

theorem lesser_stuck (htwo : 2 ≤ cfg.maxSize) (hk₀ : k₀ < k)
    (hfull : cfg.maxSize < sizeInc (cfg.staleSize 2)) :
    Stuck cfg {} [.set k val, .set k₀ val] := by
  refine (goes_first cfg k val).stuck ?_
  exact (firstTree_lesser k _).set_beyond htwo hk₀ rfl hfull (htwo.trans hfull.le)

/-- And it goes again: the call says that it did if what the memory held was not zero. -/
theorem lesser_deletes (htwo : 2 ≤ cfg.maxSize) (hk₀ : k₀ < k) (hmod : cfg.staleSize 2 < sizeMod)
    (hfits : sizeInc (cfg.staleSize 2) ≤ cfg.maxSize) :
    ∃ t, Goes cfg {} [.set k val, .set k₀ val, .delete k₀] t
      [.done, .done, .deleted (decide (cfg.staleSize 2 ≠ 0))] := by
  have hgo := lesser_goes val htwo hk₀ hfits
  have hdelete := LeafList.deleteKey_head k₀ [] val (sizeInc (cfg.staleSize 2))
  rw [sizeDec_sizeInc hmod] at hdelete
  have hole := firstTree_lesser k ⟨none, ⟨pairsOf val [k], sizeInc (cfg.staleSize 0)⟩⟩
  by_cases hzero : cfg.staleSize 2 = 0
  · rw [decide_eq_false (not_not.mpr hzero)]
    exact ⟨_, hgo.append (.one (hole.delete_lesser (l := ⟨some 0, _⟩) cfg rfl hk₀ hdelete hzero))⟩
  · rw [decide_eq_true hzero]
    exact ⟨_, hgo.append (.one (hole.delete_keeps (l := ⟨some 0, _⟩) cfg hk₀ hdelete hzero))⟩

section Second

variable (hlt : k₀ < k₁) (hk₁ : k₁ < k)

include hlt hk₁

/-- Two keys below the first one, of which one goes. -/
theorem lesserSecond_deletes (htwo : 2 ≤ cfg.maxSize)
    (hfits : sizeInc (cfg.staleSize 2) ≤ cfg.maxSize)
    (hfits' : sizeInc (sizeInc (cfg.staleSize 2)) ≤ cfg.maxSize) :
    ∃ t, Goes cfg {} [.set k val, .set k₀ val, .set k₁ val, .delete k₁] t
      [.done, .done, .done, .deleted (decide (sizeInc (cfg.staleSize 2) ≠ 0))] := by
  have hgo := lesser_goes val htwo (hlt.trans hk₁) hfits
  have hole := firstTree_lesser k ⟨none, ⟨pairsOf val [k], sizeInc (cfg.staleSize 0)⟩⟩
  have hset := hole.set_fits (l := ⟨some 0, _⟩) htwo hk₁
    (LeafList.set_second hlt val (sizeInc (cfg.staleSize 2))) hfits'
  have hdelete := LeafList.deleteKey_second hlt val (sizeInc (sizeInc (cfg.staleSize 2)))
  rw [sizeDec_sizeInc (sizeInc_lt (cfg.staleSize 2))] at hdelete
  by_cases hzero : sizeInc (cfg.staleSize 2) = 0
  · rw [decide_eq_false (not_not.mpr hzero)]
    exact ⟨_, hgo.append (.cons hset
      (.one (hole.delete_lesser (l := ⟨some 0, _⟩) cfg rfl hk₁ hdelete hzero)))⟩
  · rw [decide_eq_true hzero]
    exact ⟨_, hgo.append (.cons hset
      (.one (hole.delete_keeps (l := ⟨some 0, _⟩) cfg hk₁ hdelete hzero)))⟩

theorem lesserSecond_stuck (htwo : 2 ≤ cfg.maxSize)
    (hfits : sizeInc (cfg.staleSize 2) ≤ cfg.maxSize)
    (hfull : cfg.maxSize < sizeInc (sizeInc (cfg.staleSize 2)))
    (hfour : 4 ≤ sizeInc (sizeInc (cfg.staleSize 2))) :
    Stuck cfg {} [.set k val, .set k₀ val, .set k₁ val, .delete k₁] := by
  have hset : Stuck cfg (firstTree k ⟨none, ⟨pairsOf val [k], sizeInc (cfg.staleSize 0)⟩⟩
      ⟨some 0, ⟨pairsOf val [k₀], sizeInc (cfg.staleSize 2)⟩⟩) [.set k₁ val] :=
    (firstTree_lesser k _).set_beyond htwo hk₁ (LeafList.set_second hlt val _) hfull hfour
  exact (lesser_goes val htwo (hlt.trans hk₁) hfits).stuck (hset.append [.delete k₁])

/-- With `max_size` 2, a lesser leaf that counts one pair too many is split in two; the right half
still counts one too many. -/
theorem lesserCut_deletes (hmax : cfg.maxSize = 2) (hone : cfg.staleSize 2 = 1) :
    ∃ t, Goes cfg {} [.set k val, .set k₀ val, .set k₁ val, .delete k₁] t
      [.done, .done, .done, .deleted true] := by
  have hgo := lesser_goes val hmax.ge (hlt.trans hk₁) (by rw [hone, hmax]; decide)
  rw [hone] at hgo
  have hset : (⟨pairsOf val [k₀], 2⟩ : LeafList K V).set k₁ val = ⟨pairsOf val [k₀, k₁], 3⟩ :=
    LeafList.set_second hlt val 2
  have hfull : cfg.maxSize < (⟨pairsOf val [k₀, k₁], 3⟩ : LeafList K V).size := by
    show cfg.maxSize < 3
    omega
  have hole := cutLesserTree_right k k₁
    (⟨none, ⟨pairsOf val [k], sizeInc (cfg.staleSize 0)⟩⟩ : Leaf K V)
    ⟨some 4, ⟨pairsOf val [k₀], 1⟩⟩
  exact ⟨_, hgo.append (.cons (set_cutLesserTree (l := ⟨some 0, _⟩) hmax.ge hset hfull
    (LeafList.split_two k₀ k₁ val) hk₁ hk₁)
    (.one (hole.delete_keeps (l := ⟨some 0, _⟩) cfg ⟨le_refl k₁, hk₁⟩
      (LeafList.deleteKey_head k₁ [] val 2) (show sizeDec 2 ≠ 0 by decide))))⟩

end Second

section Ascending

theorem lesserAscending_goes (val : V) (htwo : 2 ≤ cfg.maxSize) (hmax : cfg.maxSize < sizeMod)
    (hasc : ks.Pairwise (· < ·)) (hks : ∀ k₁ ∈ ks, k₁ < k)
    (hfits : cfg.staleSize 2 + ks.length ≤ cfg.maxSize) :
    Goes cfg {} (.set k val :: sets val ks)
      (firstTree k ⟨none, ⟨pairsOf val [k], sizeInc (cfg.staleSize 0)⟩⟩
        ⟨some 0, ⟨pairsOf val ks, cfg.staleSize 2 + ks.length⟩⟩) (.done :: ks.map fun _ => .done) :=
  (goes_first cfg k val).append (@LeafHole.goes_sets K V _ _ _ _ _ _ (firstTree_lesser k _) cfg
    (some 0) val [] ks htwo hasc hks _ hfits hmax)

/-- Some keys go again, and every call says that it did. -/
theorem lesserAscending_keeps (htwo : 2 ≤ cfg.maxSize) (hmax : cfg.maxSize < sizeMod)
    (hasc : ks.Pairwise (· < ·)) (hks : ∀ k₁ ∈ ks, k₁ < k) (hne : cfg.staleSize 2 ≠ 0)
    (hfits : cfg.staleSize 2 + ks.length ≤ cfg.maxSize) (half : Nat) :
    ∃ t rs, Goes cfg {} (.set k val :: (sets val ks ++ deletes (ks.take half))) t rs ∧
      .deleted false ∉ rs := by
  have hgo := lesserAscending_goes val htwo hmax hasc hks hfits
  have hlen : (ks.take half).length ≤ ks.length := List.length_take_le' _ _
  obtain ⟨size, hsize⟩ : ∃ size, cfg.staleSize 2 + ks.length = size + (ks.take half).length :=
    ⟨cfg.staleSize 2 + ks.length - (ks.take half).length, by omega⟩
  have hdeletes := @LeafHole.goes_deletes K V _ _ _ _ _ _
    (firstTree_lesser k ⟨none, ⟨pairsOf val [k], sizeInc (cfg.staleSize 0)⟩⟩) cfg (some 0) val
    (ks.take half) (ks.drop half) (fun k₁ hk₁ => hks k₁ (List.mem_of_mem_take hk₁)) size (by omega)
    (by omega)
  rw [List.take_append_drop, ← hsize] at hdeletes
  exact ⟨_, _, hgo.append hdeletes, by simp⟩

/-- The leaf is split at the last key.  When the last pair of the left half goes, the call says
that it did nothing. -/
theorem lesserAscending_cut (hthree : 3 ≤ cfg.maxSize) (hmax : cfg.maxSize + 1 < sizeMod)
    (hasc : ks.Pairwise (· < ·)) (hks : ∀ k₁ ∈ ks, k₁ < k) (hne : ks ≠ [])
    (hsize : cfg.staleSize 2 + ks.length = cfg.maxSize + 1) :
    Stuck cfg {} (.set k val :: (sets val ks ++ deletes (ks.take ((cfg.maxSize + 1) / 2)))) ∨
      ∃ t rs,
        Goes cfg {}
          (.set k val :: (sets val ks ++ deletes (ks.take ((cfg.maxSize + 1) / 2)))) t rs ∧
          .deleted false ∈ rs := by
  obtain ⟨ks₀, kl, rfl⟩ := (List.eq_nil_or_concat' ks).resolve_left hne
  rw [List.length_append, List.length_singleton, ← Nat.add_assoc, Nat.add_right_cancel_iff] at hsize
  have hkl : kl < k := hks kl (by simp)
  have hgo := lesserAscending_goes val (by omega) (by omega) (List.pairwise_append.mp hasc).1
    (fun k₁ hk₁ => hks k₁ (List.mem_append_left _ hk₁)) hsize.le
  have hset := LeafList.set_last hasc val cfg.maxSize
  rw [sizeInc_of_lt hmax] at hset
  rw [hsize] at hgo
  rw [sets_concat]
  by_cases hlt : (cfg.maxSize + 1) / 2 < (ks₀ ++ [kl]).length
  · obtain ⟨init, last, key', rest, hkeys, hlen, hsplit⟩ :=
      LeafList.split_pairsOf rfl (by omega) hlt val
    have hleft : (ks₀ ++ [kl]).take ((cfg.maxSize + 1) / 2) = init ++ [last] := by
      rw [hkeys, List.append_assoc _ [key'] rest]
      exact List.take_left' (by rw [List.length_append, List.length_singleton]; omega)
    rw [hkeys] at hasc hks
    have hbelow (k₁ : K) (hk₁ : k₁ ∈ init ++ [last]) : k₁ < key' :=
      (List.pairwise_append.mp (List.pairwise_append.mp hasc).1).2.2 k₁ hk₁ key' List.mem_cons_self
    have hkey' : key' < k := hks key' (by simp)
    have hset' := hgo.append
      (.one (set_cutLesserTree (by omega) hset (Nat.lt_succ_self _) hsplit hkl hkey'))
    have hole := cutLesserTree_left k key'
      (⟨none, ⟨pairsOf val [k], sizeInc (cfg.staleSize 0)⟩⟩ : Leaf K V)
      ⟨some 0, ⟨(key', val) :: pairsOf val rest, cfg.maxSize + 1 - (cfg.maxSize + 1) / 2⟩⟩
    have hdeletes := @LeafHole.goes_deletes K V _ _ _ _ _ _ hole cfg (some 4) val init [last]
      (fun k₁ hk₁ => hbelow k₁ (List.mem_append_left _ hk₁)) 1 (by decide) (by omega)
    have hlast := hole.delete_lesser (l := ⟨some 4, _⟩) cfg rfl (hbelow last (by simp))
      (LeafList.deleteKey_head last [] val 1) rfl
    rw [hleft, deletes_concat]
    exact .inr ⟨_, _, hset'.append (hdeletes.append (.one hlast)), by simp⟩
  · refine .inl ((hgo.stuck ?_).append (deletes _))
    refine (firstTree_lesser k _).set_beyond (by omega) hkl hset (Nat.lt_succ_self _) ?_
    simp only [pairsOf, List.length_map]
    omega

end Ascending

end Lesser

/-! ## The exact condition -/

theorem Order.two_le_maxSize (o : Order) (stale : Nat → UInt64) :
    2 ≤ (o.configIn stale).maxSize := by
  have hthree := o.three_le
  show 2 ≤ o.val - 1
  omega

namespace SameRuns

variable {o : Order} {stale stale' : Nat → UInt64} (h : SameRuns K V o stale stale') (val : V)
  {k k' : K}

section First

include h val

theorem first_ne_zero (k : K) (hlt : (stale 0).toNat < (stale' 0).toNat) : (stale 0).toNat ≠ 0 := by
  intro hzero
  have hne : (stale' 0).toNat ≠ 0 := by omega
  obtain ⟨t, hgo⟩ := @nonzero_goes K V _ (o.configIn stale') k val hne (UInt64.toNat_lt _)
  exact h.symm.not_stuck hgo (zero_stuck hzero)

variable (hpos : (stale 0).toNat ≠ 0) (hsmall : (stale 0).toNat < o.val - 1)

include hpos hsmall

/-- The other counter does not start at zero. -/
theorem first_not_wraps (hlt : k < k') : (stale' 0).toNat + 1 ≠ sizeMod := by
  intro hmax
  have hsize := o.lt_size
  have hzero : sizeInc (stale' 0).toNat = 0 := sizeInc_wraps hmax
  have hstuck : Stuck (o.configIn stale') {} [.set k val, .set k' val, .delete k, .get k] :=
    second_zero_stuck hlt (o.two_le_maxSize stale') hzero
  have hinc : sizeInc (stale 0).toNat = (stale 0).toNat + 1 := sizeInc_of_lt (by omega)
  have hinc₂ : sizeInc (sizeInc (stale 0).toNat) = (stale 0).toNat + 2 :=
    sizeInc_sizeInc (by omega)
  by_cases hfits : (stale 0).toNat + 2 ≤ o.val - 1
  · obtain ⟨t, hgo⟩ := @second_nonzero_goes K V _ (o.configIn stale) k k' val hlt
      (o.two_le_maxSize stale) (hinc₂.trans_le hfits) (hinc.trans_ne (Nat.succ_ne_zero _))
    exact h.not_stuck hgo hstuck
  by_cases htwo' : o.val - 1 = 2
  · have hone : (stale 0).toNat = 1 := by omega
    obtain ⟨t, hgo⟩ := @cut_goes K V _ (o.configIn stale) k k' val hlt htwo' hone
    exact h.not_stuck hgo hstuck
  · have hone : sizeInc (sizeInc (stale' 0).toNat) = 1 := by rw [hzero]; rfl
    have hgo := @second_goes K V _ (o.configIn stale') k k' hlt val (o.two_le_maxSize stale')
      (hone.trans_le (Nat.le_of_succ_le (o.two_le_maxSize stale')))
    have hfull : o.val - 1 < sizeInc (sizeInc (stale 0).toNat) := by omega
    have hfour : 4 ≤ sizeInc (sizeInc (stale 0).toNat) := by omega
    exact h.symm.not_stuck hgo (second_stuck hlt (o.two_le_maxSize stale) hfull hfour)

omit hpos in
/-- Nor does it let the next `set` split the leaf. -/
theorem first_not_full (k : K) (hwraps : (stale' 0).toNat + 1 ≠ sizeMod) :
    (stale' 0).toNat < o.val - 1 := by
  by_contra hfull
  have hsize := o.lt_size
  have hmod : (stale' 0).toNat < sizeMod := UInt64.toNat_lt _
  have hinc : sizeInc (stale 0).toNat = (stale 0).toNat + 1 := sizeInc_of_lt (by omega)
  have hinc' : sizeInc (stale' 0).toNat = (stale' 0).toNat + 1 := sizeInc_of_lt (by omega)
  have hfits : sizeInc (stale 0).toNat ≤ o.val - 1 := by omega
  obtain ⟨t, hgo⟩ := @again_goes K V _ (o.configIn stale) k val (o.two_le_maxSize stale) hfits
  have hbeyond : o.val - 1 < sizeInc (stale' 0).toNat := by omega
  exact h.not_stuck hgo (again_stuck (o.two_le_maxSize stale') hbeyond)

/-- Both leaves take pairs; the one that counts more is split before the other. -/
theorem first_not_between {ks : List K} (hasc : (k :: ks).Pairwise (· < ·))
    (hlen : o.val ≤ ks.length + 1) (hlt : (stale 0).toNat < (stale' 0).toNat) :
    o.val - 1 ≤ (stale' 0).toNat := by
  by_contra hfull
  have hsize := o.lt_size
  obtain ⟨ks₁, hks₁, hlen₁⟩ : ∃ ks₁ : List K, ks₁.Sublist ks ∧
      (stale' 0).toNat + ks₁.length = o.val - 1 := by
    refine ⟨ks.take (o.val - 1 - (stale' 0).toNat), List.take_sublist _ _, ?_⟩
    rw [List.length_take_of_le (by omega)]
    omega
  have hasc₁ : (k :: ks₁).Pairwise (· < ·) := hasc.sublist (hks₁.cons_cons k)
  have hthree : 3 ≤ (o.configIn stale').maxSize := by show 3 ≤ o.val - 1; omega
  have hmod : o.val - 1 + 1 < sizeMod := by omega
  have hfits : (stale 0).toNat + 1 + ks₁.length ≤ o.val - 1 := by omega
  have hne : ks₁ ≠ [] := by
    rintro rfl
    rw [List.length_nil] at hlen₁
    omega
  obtain ⟨t, rs, hgo⟩ := @ascending_keeps K V _ (o.configIn stale) k val ks₁
    (o.two_le_maxSize stale) (Nat.lt_of_succ_lt hmod) hasc₁ hpos hfits ((o.val - 1 + 1) / 2)
  exact h.not_stuck hgo (ascending_stuck hthree hmod hasc₁ hne hlen₁)

omit hpos hsmall in
theorem first_full {ks : List K} (hasc : (k :: k' :: ks).Pairwise (· < ·))
    (hlen : o.val ≤ ks.length + 2) (hlt : (stale 0).toNat < (stale' 0).toNat) :
    o.val - 1 ≤ (stale 0).toNat := by
  by_contra hsmall
  have hpos := h.first_ne_zero val k hlt
  have hlt' : k < k' := (List.pairwise_cons.mp hasc).1 k' List.mem_cons_self
  have hwraps := h.first_not_wraps val hpos (by omega) hlt'
  have hfull := h.first_not_full val (by omega) k hwraps
  have hbetween := h.first_not_between val hpos (by omega) hasc hlen hlt
  omega

omit hpos hsmall in
/-- A counter that is as large as can be is zero after one pair or after two. -/
theorem first_fits (hlt : k < k') (hfull : o.val - 1 ≤ (stale 0).toNat)
    (hcounter : (stale 0).toNat < (stale' 0).toNat) : (stale' 0).toNat + 2 < sizeMod := by
  by_contra hlarge
  have hthree := o.three_le
  have hmod : (stale' 0).toNat < sizeMod := UInt64.toNat_lt _
  have hinc : sizeInc (stale 0).toNat = (stale 0).toNat + 1 := sizeInc_of_lt (by omega)
  by_cases hmax : (stale' 0).toNat + 1 = sizeMod
  · have hzero : sizeInc (stale' 0).toNat = 0 := sizeInc_wraps hmax
    obtain ⟨t, hgo⟩ := @again_goes K V _ (o.configIn stale') k val (o.two_le_maxSize stale')
      (hzero.trans_le (Nat.zero_le _))
    have hbeyond : o.val - 1 < sizeInc (stale 0).toNat := by omega
    exact h.symm.not_stuck hgo (again_stuck (o.two_le_maxSize stale) hbeyond)
  · have hzero : sizeInc (sizeInc (stale' 0).toNat) = 0 := by
      rw [sizeInc_of_lt (by omega : (stale' 0).toNat + 1 < sizeMod)]
      exact sizeInc_wraps (by omega)
    have hinc₂ : sizeInc (sizeInc (stale 0).toNat) = (stale 0).toNat + 2 :=
      sizeInc_sizeInc (by omega)
    have hgo := @second_goes K V _ (o.configIn stale') k k' hlt val (o.two_le_maxSize stale')
      (hzero.trans_le (Nat.zero_le _))
    have hbeyond : o.val - 1 < sizeInc (sizeInc (stale 0).toNat) := by omega
    have hfour : 4 ≤ sizeInc (sizeInc (stale 0).toNat) := by omega
    exact h.symm.not_stuck hgo (second_stuck hlt (o.two_le_maxSize stale) hbeyond hfour)

end First

section Lesser

include h val

theorem lesser_ne_zero {k₀ : K} (hk₀ : k₀ < k) (hlt : (stale 2).toNat < (stale' 2).toNat) :
    (stale 2).toNat ≠ 0 := by
  intro hzero
  have hthree := o.three_le
  have hone : sizeInc (stale 2).toNat = 1 := by rw [hzero]; rfl
  obtain ⟨t, hgo⟩ := @lesser_deletes K V _ (o.configIn stale) k k₀ val (o.two_le_maxSize stale) hk₀
    (UInt64.toNat_lt _) (hone.trans_le (Nat.le_of_succ_le (o.two_le_maxSize stale)))
  by_cases hfits : sizeInc (stale' 2).toNat ≤ o.val - 1
  · obtain ⟨t', hgo'⟩ := @lesser_deletes K V _ (o.configIn stale') k k₀ val
      (o.two_le_maxSize stale') hk₀ (UInt64.toNat_lt _) hfits
    have hsame := h.eq_of_goes hgo hgo'
    have hne : (stale' 2).toNat ≠ 0 := by omega
    simp [Order.configIn, hzero, hne] at hsame
  · have hbeyond : o.val - 1 < sizeInc (stale' 2).toNat := Nat.lt_of_not_le hfits
    have hstuck : Stuck (o.configIn stale') {} [.set k val, .set k₀ val] :=
      lesser_stuck (o.two_le_maxSize stale') hk₀ hbeyond
    exact h.not_stuck hgo (hstuck.append [.delete k₀])

variable (hsmall : (stale 2).toNat < o.val - 1)

include hsmall

theorem lesser_not_full {k₀ : K} (hk₀ : k₀ < k) (hwraps : (stale' 2).toNat + 1 ≠ sizeMod) :
    (stale' 2).toNat < o.val - 1 := by
  by_contra hfull
  have hsize := o.lt_size
  have hmod : (stale' 2).toNat < sizeMod := UInt64.toNat_lt _
  have hinc : sizeInc (stale 2).toNat = (stale 2).toNat + 1 := sizeInc_of_lt (by omega)
  have hinc' : sizeInc (stale' 2).toNat = (stale' 2).toNat + 1 := sizeInc_of_lt (by omega)
  have hfits : sizeInc (stale 2).toNat ≤ o.val - 1 := by omega
  have hbeyond : o.val - 1 < sizeInc (stale' 2).toNat := by omega
  have hstuck : Stuck (o.configIn stale') {} [.set k val, .set k₀ val] :=
    lesser_stuck (o.two_le_maxSize stale') hk₀ hbeyond
  have hgo := @lesser_goes K V _ (o.configIn stale) k k₀ val (o.two_le_maxSize stale) hk₀ hfits
  exact h.not_stuck hgo hstuck

theorem lesser_not_wraps {k₀ k₁ : K} (hlt : k₀ < k₁) (hk₁ : k₁ < k) (hpos : (stale 2).toNat ≠ 0) :
    (stale' 2).toNat + 1 ≠ sizeMod := by
  intro hmax
  have hsize := o.lt_size
  have hzero : sizeInc (stale' 2).toNat = 0 := sizeInc_wraps hmax
  have hone : sizeInc (sizeInc (stale' 2).toNat) = 1 := by rw [hzero]; rfl
  obtain ⟨t', hgo'⟩ := @lesserSecond_deletes K V _ (o.configIn stale') k k₀ k₁ val hlt hk₁
    (o.two_le_maxSize stale') (hzero.trans_le (Nat.zero_le _))
    (hone.trans_le (Nat.le_of_succ_le (o.two_le_maxSize stale')))
  have hfalse : decide (sizeInc ((o.configIn stale').staleSize 2) ≠ 0) = false :=
    decide_eq_false (not_not.mpr hzero)
  rw [hfalse] at hgo'
  have hinc : sizeInc (stale 2).toNat = (stale 2).toNat + 1 := sizeInc_of_lt (by omega)
  have hinc₂ : sizeInc (sizeInc (stale 2).toNat) = (stale 2).toNat + 2 :=
    sizeInc_sizeInc (by omega)
  have hfits : sizeInc (stale 2).toNat ≤ o.val - 1 := by omega
  by_cases hfits₂ : (stale 2).toNat + 2 ≤ o.val - 1
  · obtain ⟨t, hgo⟩ := @lesserSecond_deletes K V _ (o.configIn stale) k k₀ k₁ val hlt hk₁
      (o.two_le_maxSize stale) hfits (hinc₂.trans_le hfits₂)
    have htrue : decide (sizeInc ((o.configIn stale).staleSize 2) ≠ 0) = true :=
      decide_eq_true (hinc.trans_ne (Nat.succ_ne_zero _))
    rw [htrue] at hgo
    exact absurd (h.eq_of_goes hgo hgo') (by simp)
  by_cases htwo : o.val - 1 = 2
  · have hone' : (stale 2).toNat = 1 := by omega
    obtain ⟨t, hgo⟩ := @lesserCut_deletes K V _ (o.configIn stale) k k₀ k₁ val hlt hk₁ htwo hone'
    exact absurd (h.eq_of_goes hgo hgo') (by simp)
  · have hbeyond : o.val - 1 < sizeInc (sizeInc (stale 2).toNat) := by omega
    have hfour : 4 ≤ sizeInc (sizeInc (stale 2).toNat) := by omega
    exact h.symm.not_stuck hgo'
      (lesserSecond_stuck hlt hk₁ (o.two_le_maxSize stale) hfits hbeyond hfour)

/-- Both leaves take pairs; the one that counts more is split before the other. -/
theorem lesser_not_between {ks : List K} (hasc : ks.Pairwise (· < ·)) (hks : ∀ k₁ ∈ ks, k₁ < k)
    (hlen : o.val ≤ ks.length + 1) (hpos : (stale 2).toNat ≠ 0)
    (hlt : (stale 2).toNat < (stale' 2).toNat) : o.val - 1 ≤ (stale' 2).toNat := by
  by_contra hfull
  have hsize := o.lt_size
  obtain ⟨ks₁, hks₁, hlen₁⟩ : ∃ ks₁ : List K, ks₁.Sublist ks ∧
      (stale' 2).toNat + ks₁.length = o.val - 1 + 1 := by
    refine ⟨ks.take (o.val - 1 + 1 - (stale' 2).toNat), List.take_sublist _ _, ?_⟩
    rw [List.length_take_of_le (by omega)]
    omega
  have hasc₁ : ks₁.Pairwise (· < ·) := hasc.sublist hks₁
  have hbelow (k₁ : K) (hk₁ : k₁ ∈ ks₁) : k₁ < k := hks k₁ (hks₁.subset hk₁)
  have hthree : 3 ≤ (o.configIn stale').maxSize := by show 3 ≤ o.val - 1; omega
  have hmod : o.val - 1 + 1 < sizeMod := by omega
  have hfits : (stale 2).toNat + ks₁.length ≤ o.val - 1 := by omega
  have hne : ks₁ ≠ [] := by
    rintro rfl
    rw [List.length_nil] at hlen₁
    omega
  obtain ⟨t, rs, hgo, hnotin⟩ := @lesserAscending_keeps K V _ (o.configIn stale) k val ks₁
    (o.two_le_maxSize stale) (Nat.lt_of_succ_lt hmod) hasc₁ hbelow hpos hfits ((o.val - 1 + 1) / 2)
  have hcut :=
    @lesserAscending_cut K V _ (o.configIn stale') k val ks₁ hthree hmod hasc₁ hbelow hne hlen₁
  rcases hcut with hstuck | ⟨t', rs', hgo', hin⟩
  · exact h.not_stuck hgo hstuck
  · exact hnotin (h.eq_of_goes hgo hgo' ▸ hin)

omit hsmall in
theorem lesser_full {k₀ k₁ : K} {ks : List K} (hasc : (k₀ :: k₁ :: ks).Pairwise (· < ·))
    (hks : ∀ k₂ ∈ k₀ :: k₁ :: ks, k₂ < k) (hlen : o.val ≤ (k₀ :: k₁ :: ks).length + 1)
    (hlt : (stale 2).toNat < (stale' 2).toNat) : o.val - 1 ≤ (stale 2).toNat := by
  by_contra hsmall
  have hlt' : k₀ < k₁ := (List.pairwise_cons.mp hasc).1 k₁ List.mem_cons_self
  have hk₁ : k₁ < k := hks k₁ (by simp)
  have hpos := h.lesser_ne_zero val (hlt'.trans hk₁) hlt
  have hwraps := h.lesser_not_wraps val (by omega) hlt' hk₁ hpos
  have hfull := h.lesser_not_full val (by omega) (hlt'.trans hk₁) hwraps
  have hbetween := h.lesser_not_between val (by omega) hasc hks hlen hpos hlt
  omega

omit hsmall in
theorem lesser_fits {k₀ : K} (hk₀ : k₀ < k) (hfull : o.val - 1 ≤ (stale 2).toNat)
    (hcounter : (stale 2).toNat < (stale' 2).toNat) : (stale' 2).toNat + 1 < sizeMod := by
  by_contra hlarge
  have hmod : (stale' 2).toNat < sizeMod := UInt64.toNat_lt _
  have hinc : sizeInc (stale 2).toNat = (stale 2).toNat + 1 := sizeInc_of_lt (by omega)
  have hzero : sizeInc (stale' 2).toNat = 0 := sizeInc_wraps (by omega)
  have hbeyond : o.val - 1 < sizeInc (stale 2).toNat := by omega
  have hgo := @lesser_goes K V _ (o.configIn stale') k k₀ val (o.two_le_maxSize stale') hk₀
    (hzero.trans_le (Nat.zero_le _))
  exact h.symm.not_stuck hgo (lesser_stuck (o.two_le_maxSize stale) hk₀ hbeyond)

end Lesser

end SameRuns

/-- The counters are told apart by one of the two orders. -/
theorem sameCounter_of_lt {cap room x y : Nat}
    (hlt : x < y → cap ≤ x ∧ y + room < sizeMod) (hgt : y < x → cap ≤ y ∧ x + room < sizeMod) :
    SameCounter cap room x y := by
  rcases lt_trichotomy x y with h | h | h
  · obtain ⟨hcap, hroom⟩ := hlt h
    exact .inr ⟨⟨hcap, by omega⟩, by omega, hroom⟩
  · exact .inl h
  · obtain ⟨hcap, hroom⟩ := hgt h
    exact .inr ⟨⟨by omega, hroom⟩, hcap, by omega⟩

/-- Where there are as many keys as the order says, the memory has to agree. -/
theorem SameRuns.memoryAgrees {o : Order} {stale stale' : Nat → UInt64}
    (h : SameRuns K V o stale stale') (val : V) {s : Finset K} (hcard : o.val ≤ s.card) :
    MemoryAgrees o stale stale' := by
  have hthree := o.three_le
  have hasc : (s.sort (· ≤ ·)).Pairwise (· < ·) := s.sortedLT_sort.pairwise
  have hlen : o.val ≤ (s.sort (· ≤ ·)).length := hcard.trans_eq (s.length_sort (· ≤ ·)).symm
  generalize s.sort (· ≤ ·) = keys at hasc hlen
  constructor
  · match keys with
    | k :: k' :: ks =>
      have hk : k < k' := (List.pairwise_cons.mp hasc).1 k' List.mem_cons_self
      have hfirst {stale stale' : Nat → UInt64} (h : SameRuns K V o stale stale')
          (hlt : (stale 0).toNat < (stale' 0).toNat) :
          o.val - 1 ≤ (stale 0).toNat ∧ (stale' 0).toNat + 2 < sizeMod := by
        have hfull := h.first_full val hasc hlen hlt
        exact ⟨hfull, h.first_fits val hk hfull hlt⟩
      exact sameCounter_of_lt (hfirst h) (hfirst h.symm)
    | [k] => simp only [List.length_singleton] at hlen; omega
    | [] => simp only [List.length_nil] at hlen; omega
  · rcases List.eq_nil_or_concat' keys with rfl | ⟨init, k, rfl⟩
    · simp only [List.length_nil] at hlen
      omega
    rw [List.length_append, List.length_singleton] at hlen
    obtain ⟨hinit, -, hbelow⟩ := List.pairwise_append.mp hasc
    have hks (k₁ : K) (hk₁ : k₁ ∈ init) : k₁ < k := hbelow k₁ hk₁ k List.mem_cons_self
    match init with
    | k₀ :: k₁ :: ks =>
      have hlesser {stale stale' : Nat → UInt64} (h : SameRuns K V o stale stale')
          (hlt : (stale 2).toNat < (stale' 2).toNat) :
          o.val - 1 ≤ (stale 2).toNat ∧ (stale' 2).toNat + 1 < sizeMod := by
        have hfull := h.lesser_full val hinit hks hlen hlt
        exact ⟨hfull, h.lesser_fits val (hks k₀ List.mem_cons_self) hfull hlt⟩
      exact sameCounter_of_lt (hlesser h) (hlesser h.symm)
    | [k₀] => simp only [List.length_singleton] at hlen; omega
    | [] => simp only [List.length_nil] at hlen; omega

/-- Two runs are the same for every sequence of calls, if the memory agrees; and only if, as soon
as there are enough keys to fill a leaf. -/
theorem sameRuns_iff (o : Order) (stale stale' : Nat → UInt64) :
    (MemoryAgrees o stale stale' → SameRuns K V o stale stale') ∧
      ((∃ s : Finset K, o.val ≤ s.card) → Nonempty V →
        (SameRuns K V o stale stale' ↔ MemoryAgrees o stale stale')) := by
  refine ⟨MemoryAgrees.sameRuns, ?_⟩
  rintro ⟨s, hcard⟩ ⟨val⟩
  exact ⟨fun h => h.memoryAgrees val hcard, MemoryAgrees.sameRuns⟩

theorem sameRuns_iff_thousand : SameRuns Nat Nat Order.six (fun _ => 7) (fun _ => 1000) ∧
    ¬ SameRuns Nat Nat Order.six (fun _ => 4) (fun _ => 1000) := by
  refine ⟨(sameRuns_iff Order.six _ _).1 ⟨.inr (by decide), .inr (by decide)⟩, fun h => ?_⟩
  have hagrees := ((sameRuns_iff Order.six _ _).2 ⟨Finset.range 6, by decide⟩ ⟨0⟩).mp h
  rcases hagrees.first with heq | ⟨⟨hle, -⟩, -⟩
  · exact absurd heq (by decide)
  · exact absurd hle (by decide)

/-- The lesser leaf counts from 0 in one run and from 1 in the other: one run says that it deleted
the key, the other that it did not. -/
theorem lesser_counter_not_sameRuns :
    ¬ SameRuns Nat Nat Order.six (fun _ => 0) (fun a => if a = 2 then 1 else 0) := by
  intro h
  have hrun : Returns (fun fuel => answers (Order.six.configIn fun _ => 0) fuel
      [.set 7 70, .set 5 50, .delete 5]) [.done, .done, .deleted false] := by
    refine ⟨2, fun fuel hfuel => ?_⟩
    obtain ⟨k, rfl⟩ : ∃ k, fuel = k + 2 := ⟨fuel - 2, by omega⟩
    rfl
  have hrun' : Returns (fun fuel => answers (Order.six.configIn fun a => if a = 2 then 1 else 0)
      fuel [.set 7 70, .set 5 50, .delete 5]) [.done, .done, .deleted true] := by
    refine ⟨2, fun fuel hfuel => ?_⟩
    obtain ⟨k, rfl⟩ : ∃ k, fuel = k + 2 := ⟨fuel - 2, by omega⟩
    rfl
  have hsame := ((h.answers _ _).mp hrun).unique hrun'
  exact absurd hsame (by decide)

end StateDb.Bpt
