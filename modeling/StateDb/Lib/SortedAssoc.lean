/-
  StateDb/Lib/SortedAssoc.lean
  ==============================
  **Finite maps as sorted association lists.**

  A finite map over a linear order is the list of its pairs in strictly
  increasing key order; lookup is `List.lookup`.  `upsert` sets a key, `remove`
  deletes one.  Both are local: on an append whose halves are separated by the
  key they touch one half only, which is what lets a search tree apply them in
  one subtree.
-/
import Mathlib.Order.WithBot
import Mathlib.Data.List.Basic

namespace StateDb.Lib.SortedAssoc

variable {K V : Type} [LinearOrder K]

/-- Strictly increasing in key. -/
def Sorted (l : List (K × V)) : Prop := l.Pairwise (fun p q => p.1 < q.1)

/-- Set the value of a key: in place when the key is there, else where it belongs. -/
def upsert (k : K) (v : V) : List (K × V) → List (K × V)
  | [] => [(k, v)]
  | p :: rest =>
      if k < p.1 then (k, v) :: p :: rest
      else if k = p.1 then (k, v) :: rest
      else p :: upsert k v rest

/-- Delete a key. -/
def remove (k : K) (l : List (K × V)) : List (K × V) := l.filter (fun p => p.1 ≠ k)

theorem sorted_nil : Sorted ([] : List (K × V)) := List.Pairwise.nil

theorem sorted_cons {p : K × V} {l : List (K × V)} :
    Sorted (p :: l) ↔ (∀ q ∈ l, p.1 < q.1) ∧ Sorted l := List.pairwise_cons

theorem sorted_append {l r : List (K × V)} :
    Sorted (l ++ r) ↔ Sorted l ∧ Sorted r ∧ ∀ p ∈ l, ∀ q ∈ r, p.1 < q.1 :=
  List.pairwise_append

theorem remove_cons_of_ne {k : K} {p : K × V} (l : List (K × V)) (h : p.1 ≠ k) :
    remove k (p :: l) = p :: remove k l := by
  simp [remove, h]

theorem remove_eq_self {k : K} {l : List (K × V)} (h : ∀ p ∈ l, p.1 ≠ k) : remove k l = l :=
  List.filter_eq_self.mpr (by simpa using h)

theorem remove_cons_self {p : K × V} {l : List (K × V)} (hs : Sorted (p :: l)) :
    remove p.1 (p :: l) = l := by
  have hrest : remove p.1 l = l := remove_eq_self fun q hq => ((sorted_cons.mp hs).1 q hq).ne'
  simpa [remove] using hrest

/-! ## Keys -/

theorem mem_upsert {k : K} {v : V} {l : List (K × V)} {p : K × V} (h : p ∈ upsert k v l) :
    p = (k, v) ∨ p ∈ l := by
  induction l with
  | nil => exact Or.inl (by simpa [upsert] using h)
  | cons q rest ih =>
    unfold upsert at h
    split at h
    · exact List.mem_cons.mp h
    · split at h
      · rcases List.mem_cons.mp h with rfl | hrest
        · exact Or.inl rfl
        · exact Or.inr (List.mem_cons_of_mem q hrest)
      · rcases List.mem_cons.mp h with rfl | hrest
        · exact Or.inr List.mem_cons_self
        · rcases ih hrest with hnew | hold
          · exact Or.inl hnew
          · exact Or.inr (List.mem_cons_of_mem q hold)

theorem key_of_mem_upsert {k : K} {v : V} {l : List (K × V)} {p : K × V}
    (h : p ∈ upsert k v l) : p.1 = k ∨ p ∈ l := by
  rcases mem_upsert h with rfl | hold
  · exact Or.inl rfl
  · exact Or.inr hold

theorem sorted_upsert {l : List (K × V)} (h : Sorted l) (k : K) (v : V) :
    Sorted (upsert k v l) := by
  induction l with
  | nil => simp [upsert, Sorted]
  | cons p rest ih =>
    obtain ⟨hp, hrest⟩ := sorted_cons.mp h
    unfold upsert
    split
    · rename_i hlt
      refine sorted_cons.mpr ⟨?_, h⟩
      intro q hq
      rcases List.mem_cons.mp hq with rfl | hq
      · exact hlt
      · exact hlt.trans (hp q hq)
    · split
      · rename_i heq
        subst heq
        exact sorted_cons.mpr ⟨hp, hrest⟩
      · rename_i hnlt hne
        have hlt : p.1 < k := lt_of_le_of_ne (not_lt.mp hnlt) (Ne.symm hne)
        refine sorted_cons.mpr ⟨?_, ih hrest⟩
        intro q hq
        rcases key_of_mem_upsert hq with hk | hq
        · rw [hk]; exact hlt
        · exact hp q hq

theorem sorted_remove {l : List (K × V)} (h : Sorted l) (k : K) : Sorted (remove k l) :=
  h.filter _

theorem mem_of_mem_remove {k : K} {l : List (K × V)} {p : K × V} (h : p ∈ remove k l) : p ∈ l :=
  (List.mem_filter.mp h).1

/-! ## Lookup -/

theorem lookup_cons_pair (k kp : K) (vp : V) (rest : List (K × V)) :
    ((kp, vp) :: rest).lookup k = if k = kp then some vp else rest.lookup k := by
  rw [List.lookup_cons]
  by_cases h : k = kp
  · simp [h]
  · have hb : (k == kp) = false := by simpa using h
    simp [hb, h]

theorem lookup_upsert (k k' : K) (v : V) (l : List (K × V)) :
    (upsert k v l).lookup k' = if k' = k then some v else l.lookup k' := by
  induction l with
  | nil => simp [upsert, lookup_cons_pair]
  | cons p rest ih =>
    obtain ⟨kp, vp⟩ := p
    unfold upsert
    split
    · rw [lookup_cons_pair]
    · split
      · rename_i heq
        obtain rfl : k = kp := heq
        rw [lookup_cons_pair, lookup_cons_pair]
        split <;> rfl
      · rename_i hne
        have hne' : ¬ k = kp := hne
        rw [lookup_cons_pair, ih, lookup_cons_pair]
        by_cases h : k' = k
        · simp [h, hne']
        · simp [h]

theorem lookup_remove (k k' : K) (l : List (K × V)) :
    (remove k l).lookup k' = if k' = k then none else l.lookup k' := by
  induction l with
  | nil => simp [remove]
  | cons p rest ih =>
    obtain ⟨kp, vp⟩ := p
    unfold remove at ih ⊢
    rw [List.filter_cons, lookup_cons_pair]
    by_cases hp : kp = k
    · subst hp
      rw [if_neg (by simp), ih]
      by_cases h : k' = kp <;> simp [h]
    · rw [if_pos (by simpa using hp), lookup_cons_pair, ih]
      by_cases h : k' = k
      · subst h; simp [Ne.symm hp]
      · simp [h]

theorem lookup_eq_none {k : K} {l : List (K × V)} (h : ∀ p ∈ l, p.1 ≠ k) :
    l.lookup k = none := by
  rw [List.lookup_eq_none_iff]
  intro p hp
  simpa using (h p hp).symm

theorem remove_of_absent {k : K} {l : List (K × V)} (h : l.lookup k = none) : remove k l = l := by
  refine remove_eq_self ?_
  intro p hp heq
  have hne := List.lookup_eq_none_iff.mp h p hp
  simp [heq] at hne

theorem upsert_ne_nil (k : K) (v : V) (l : List (K × V)) : upsert k v l ≠ [] := by
  cases l with
  | nil => simp [upsert]
  | cons p rest =>
    unfold upsert
    split
    · simp
    · split <;> simp

theorem length_upsert_le (k : K) (v : V) (l : List (K × V)) :
    (upsert k v l).length ≤ l.length + 1 := by
  induction l with
  | nil => simp [upsert]
  | cons p rest ih =>
    unfold upsert
    split
    · simp
    · split
      · simp
      · simpa using ih

/-- Setting a key that is absent adds a pair. -/
theorem length_upsert_of_absent {k : K} (v : V) {l : List (K × V)} (h : l.lookup k = none) :
    (upsert k v l).length = l.length + 1 := by
  induction l with
  | nil => rfl
  | cons p rest ih =>
    rw [lookup_cons_pair] at h
    by_cases heq : k = p.1
    · rw [if_pos heq] at h
      cases h
    · rw [if_neg heq] at h
      simp only [upsert, if_neg heq]
      split
      · rfl
      · rw [List.length_cons, ih h, List.length_cons]

/-- Setting a key that is present adds no pair. -/
theorem length_upsert_of_lookup {k : K} (v : V) {l : List (K × V)} (hs : Sorted l)
    (h : l.lookup k ≠ none) : (upsert k v l).length = l.length := by
  induction l with
  | nil => exact absurd rfl h
  | cons p rest ih =>
    obtain ⟨hp, hrest⟩ := sorted_cons.mp hs
    have hnot : ¬ k < p.1 := by
      intro hlt
      refine h (lookup_eq_none fun q hq => ?_)
      rcases List.mem_cons.mp hq with rfl | hq
      · exact hlt.ne'
      · exact (hlt.trans (hp q hq)).ne'
    simp only [upsert, if_neg hnot]
    split
    · rfl
    · rename_i hne
      rw [lookup_cons_pair, if_neg hne] at h
      simp [ih hrest h]

/-- Removing a key that is present removes exactly one pair. -/
theorem length_remove {k : K} {l : List (K × V)} (hs : Sorted l) (h : l.lookup k ≠ none) :
    (remove k l).length + 1 = l.length := by
  induction l with
  | nil => exact absurd rfl h
  | cons p rest ih =>
    obtain ⟨kp, vp⟩ := p
    by_cases hp : kp = k
    · subst hp
      rw [remove_cons_self hs, List.length_cons]
    · rw [lookup_cons_pair, if_neg (Ne.symm hp)] at h
      rw [remove_cons_of_ne rest hp, List.length_cons, List.length_cons,
        ih (sorted_cons.mp hs).2 h]

theorem lookup_eq_some_iff {l : List (K × V)} (hs : Sorted l) {k : K} {v : V} :
    l.lookup k = some v ↔ (k, v) ∈ l := by
  induction l with
  | nil => simp
  | cons p rest ih =>
    obtain ⟨kp, vp⟩ := p
    obtain ⟨hp, hrest⟩ := sorted_cons.mp hs
    rw [lookup_cons_pair, List.mem_cons]
    by_cases hk : k = kp
    · subst hk
      have hnot : (k, v) ∉ rest := fun hin => lt_irrefl k (hp _ hin)
      simp [hnot, eq_comm]
    · simp [hk, ih hrest]

theorem lookup_append_left {k : K} {l r : List (K × V)} (h : ∀ p ∈ r, p.1 ≠ k) :
    (l ++ r).lookup k = l.lookup k := by
  rw [List.lookup_append, lookup_eq_none h, Option.or_none]

theorem lookup_append_right {k : K} {l r : List (K × V)} (h : ∀ p ∈ l, p.1 ≠ k) :
    (l ++ r).lookup k = r.lookup k := by
  rw [List.lookup_append, lookup_eq_none h, Option.none_or]

/-! ## Locality -/

theorem upsert_append_left {k : K} {v : V} {l r : List (K × V)} (h : ∀ p ∈ r, k < p.1) :
    upsert k v (l ++ r) = upsert k v l ++ r := by
  induction l with
  | nil =>
    cases r with
    | nil => rfl
    | cons p rest => simp [upsert, h p List.mem_cons_self]
  | cons p rest ih =>
    simp only [List.cons_append, upsert]
    split
    · rfl
    · split
      · rfl
      · rw [ih]; rfl

theorem upsert_append_right {k : K} {v : V} {l r : List (K × V)} (h : ∀ p ∈ l, p.1 < k) :
    upsert k v (l ++ r) = l ++ upsert k v r := by
  induction l with
  | nil => rfl
  | cons p rest ih =>
    have hp : p.1 < k := h p List.mem_cons_self
    simp only [List.cons_append, upsert, if_neg (not_lt.mpr hp.le), if_neg (ne_of_gt hp)]
    rw [ih fun q hq => h q (List.mem_cons_of_mem _ hq)]

theorem remove_append (k : K) (l r : List (K × V)) :
    remove k (l ++ r) = remove k l ++ remove k r := List.filter_append ..

end StateDb.Lib.SortedAssoc
