/-
  StateDb/BptLeaf.lean
  ====================
  **`leaf::insert`.**

  The pair goes into the list of the leaf; a leaf that then holds more than
  `max_size` pairs is cut in two, its right half being a new leaf
  (`leafInsert_spec`).  The new leaf comes behind the old one in the leaf chain.
-/
import StateDb.BptFrame

namespace StateDb.Bpt

open Lib Lib.SortedAssoc

variable {K V : Type} [LinearOrder K] {cfg : Config} {Q : LeafPolicy K V}

/-- An order with which leaves and internal nodes can always be cut in two, and
fresh memory that is zero. -/
structure Config.Admissible (cfg : Config) : Prop where
  three_le : 3 ≤ cfg.order
  lt_size : cfg.order < sizeMod
  zeroed : ∀ a, cfg.staleSize a = 0

/-! ## `leaf::insert` -/

/-- What `leaf::insert` leaves behind. -/
inductive LeafInserted (cap : Nat) (Q : LeafPolicy K V) (h : Heap K V) (lo : WithBot K)
    (hi : WithTop K) (p : Nat) (s : Span K V) (entries : List (K × V)) :
    Heap K V × Option Nat → Prop
  | whole (h' : Heap K V) (l : Leaf K V) (leaf : IsLeaf cap Q h' lo hi p l)
      (replaces : Replaces h h' s (leafSpan p l)) (nodes : l.mList.nodes = entries) :
      LeafInserted cap Q h lo hi p s entries (h', none)
  | halves (h' : Heap K V) (q : Nat) (k : K) (l₁ l₂ : Leaf K V) (above : lo < k)
      (below : (k : WithTop K) < hi) (primary : primaryKey h' q = .ok k)
      (left : IsLeaf cap Q h' lo k p l₁) (right : IsLeaf cap Q h' k hi q l₂)
      (replaces : Replaces h h' s (Span.join [leafSpan p l₁, leafSpan q l₂]))
      (nodes : l₁.mList.nodes ++ l₂.mList.nodes = entries) :
      LeafInserted cap Q h lo hi p s entries (h', some q)

omit [LinearOrder K] in
theorem keysKept_writeLeaf {h : Heap K V} {p : Nat} {l : Leaf K V}
    (hc : h.read p = some (.leaf l)) (c : Cell K V) : KeysKept h (h.write p c) :=
  KeysKept.write_other hc (fun _ heq => by cases heq) c

omit [LinearOrder K] in
/-- Another leaf is written over a leaf. -/
theorem replaces_writeLeaf {h : Heap K V} {p : Nat} {l l' : Leaf K V}
    (hc : h.read p = some (.leaf l)) (hnext : l'.mNext = l.mNext) :
    Replaces h (h.write p (.leaf l')) (leafSpan p l) (leafSpan p l') where
  frame := (Frame.refl h [p]).write (Or.inl List.mem_cons_self) (keysKept_writeLeaf hc _)
  owns := ⟨by simp [leafSpan], List.Subset.refl _, fun a ha => by
    rw [List.mem_singleton.mp ha, CellStore.fresh_write]
    exact CellStore.lt_fresh_of_read hc⟩
  foot a ha := Or.inl ha
  chain nx hch := by
    obtain ⟨⟨m, hm, hmn⟩, -⟩ := hch
    obtain rfl : m = l := by simpa [hc] using hm.symm
    exact ⟨⟨l', CellStore.read_write_self hc, hnext.trans hmn⟩, trivial⟩
  head := rfl

omit [LinearOrder K] in
/-- The cells of the two halves of a leaf that was cut. -/
theorem read_cutLeaf {h : Heap K V} {p : Nat} {l : Leaf K V} (hc : h.read p = some (.leaf l))
    (l₁ l₂ : Leaf K V) :
    ((h.alloc (.leaf l₂)).write p (.leaf l₁)).read p = some (.leaf l₁) ∧
      ((h.alloc (.leaf l₂)).write p (.leaf l₁)).read h.fresh = some (.leaf l₂) := by
  have hlt : p < h.fresh := CellStore.lt_fresh_of_read hc
  constructor
  · exact CellStore.read_write_self (by rw [CellStore.read_alloc_of_lt hlt, hc])
  · rw [CellStore.read_write_of_ne hlt.ne', CellStore.read_alloc_self]

omit [LinearOrder K] in
/-- A leaf is cut in two, and its right half is a new leaf. -/
theorem replaces_cutLeaf {h : Heap K V} {p : Nat} {l l₁ l₂ : Leaf K V}
    (hc : h.read p = some (.leaf l)) (hnext₁ : l₁.mNext = some h.fresh)
    (hnext₂ : l₂.mNext = l.mNext) :
    Replaces h ((h.alloc (.leaf l₂)).write p (.leaf l₁)) (leafSpan p l)
      (Span.join [leafSpan p l₁, leafSpan h.fresh l₂]) := by
  have hlt : p < h.fresh := CellStore.lt_fresh_of_read hc
  have hmem : ∀ b ∈ (Span.join [leafSpan p l₁, leafSpan h.fresh l₂]).foot, b = p ∨ b = h.fresh := by
    intro b hb
    simpa [Span.join, leafSpan] using hb
  obtain ⟨hp, hq⟩ := read_cutLeaf hc l₁ l₂
  refine ⟨?_, ⟨?_, List.Subset.refl _, ?_⟩, ?_, ?_, rfl⟩
  · refine ((Frame.refl h [p]).alloc _).write (Or.inl List.mem_cons_self) ?_
    exact keysKept_writeLeaf (l := l) (by rw [CellStore.read_alloc_of_lt hlt, hc]) _
  · simp [Span.join, leafSpan, hlt.ne]
  · intro b hb
    have := hmem b hb
    rw [CellStore.fresh_write, CellStore.fresh_alloc]
    omega
  · intro b hb
    exact (hmem b hb).imp (fun heq => by simp [leafSpan, heq]) fun heq => heq.ge
  · intro nx hch
    obtain ⟨⟨m, hm, hmn⟩, -⟩ := hch
    obtain rfl : m = l := by simpa [hc] using hm.symm
    exact ⟨⟨l₁, hp, hnext₁⟩, ⟨l₂, hq, hnext₂.trans hmn⟩, trivial⟩

/-- The new pair is in, and the leaf may hold one pair too many. -/
theorem IsLeaf.set {cap : Nat} {h : Heap K V} {lo : WithBot K} {hi : WithTop K} {p : Nat}
    {l : Leaf K V} (hl : IsLeaf cap Q h lo hi p l) {key : K} (val : V) (hlo : lo ≤ key)
    (hhi : (key : WithTop K) < hi) (hcap : cap + 1 < sizeMod) :
    IsLeaf (cap + 1) Q (h.write p (.leaf { l with mList := l.mList.set key val })) lo hi p
      { l with mList := l.mList.set key val } := by
  have hnodes := LeafList.set_nodes l.mList key val hl.sorted
  have hkept := hl.kept.set key val hcap
  refine ⟨CellStore.read_write_self hl.cell, hkept.sorted, hkept.sized, hkept.capacity, ?_, ?_, ?_⟩
  · intro q hq
    rw [hnodes] at hq
    rcases key_of_mem_upsert hq with hk | hq
    · rw [hk]; exact hlo
    · exact hl.above q hq
  · intro q hq
    rw [hnodes] at hq
    rcases key_of_mem_upsert hq with hk | hq
    · rw [hk]; exact hhi
    · exact hl.below q hq
  · exact hnodes ▸ Q.upsert lo _ key val hl.sorted hl.above hlo hl.policy

variable (cfg) in
/-- `leaf::split` of a leaf with one pair too many. -/
theorem leafSplit_spec {cap : Nat} {h : Heap K V} {lo : WithBot K} {hi : WithTop K} {p : Nat}
    {l : Leaf K V} (hl : IsLeaf (cap + 1) Q h lo hi p l) (hcap : 1 ≤ cap)
    (hfull : cap < l.mList.nodes.length) :
    ∃ r, leafSplit cfg h p = .ok r ∧
      LeafInserted cap Q h lo hi p (leafSpan p l) l.mList.nodes r := by
  obtain ⟨left, right, happ, hleft, hright, hleftlen, hsplit⟩ :=
    LeafList.split_eq hl.sized (by omega)
  obtain ⟨a, as, hleftcons⟩ := List.exists_cons_of_ne_nil hleft
  obtain ⟨pr, rest, rfl⟩ := List.exists_cons_of_ne_nil hright
  have ha : a ∈ left := hleftcons ▸ List.mem_cons_self
  have hsorted := hl.sorted
  have habove := hl.above
  have hbelow := hl.below
  have hpolicy := hl.policy
  have hlen := hl.capacity
  rw [happ] at hsorted habove hbelow hpolicy hlen hfull hleftlen
  rw [List.length_append, List.length_cons] at hlen hfull hleftlen
  obtain ⟨hsortL, hsortR, hcross⟩ := sorted_append.mp hsorted
  obtain ⟨hQ₁, hQ₂⟩ := Q.split lo left pr rest hsorted habove hleft hpolicy
  let l₁ : Leaf K V := ⟨some h.fresh, ⟨left, left.length⟩⟩
  let l₂ : Leaf K V := ⟨l.mNext, ⟨pr :: rest, (pr :: rest).length⟩⟩
  obtain ⟨hp, hq⟩ := read_cutLeaf hl.cell l₁ l₂
  refine ⟨((h.alloc (.leaf l₂)).write p (.leaf l₁), some h.fresh), ?_,
    .halves _ h.fresh pr.1 l₁ l₂ ?_ (hbelow pr (by simp)) ?_ ?_ ?_
      (replaces_cutLeaf hl.cell rfl rfl) happ.symm⟩
  · simp only [leafSplit, derefLeaf_eq hl.cell, hsplit, Outcome.ok_bind]
    rfl
  · exact lt_of_le_of_lt (habove a (List.mem_append_left _ ha))
      (WithBot.coe_lt_coe.mpr (hcross a ha pr List.mem_cons_self))
  · simp only [primaryKey, hq]
    rfl
  · exact ⟨hp, hsortL, rfl, by simp only [l₁]; omega,
      fun q hq => habove q (List.mem_append_left _ hq),
      fun q hq => WithTop.coe_lt_coe.mpr (hcross q hq pr List.mem_cons_self), hQ₁⟩
  · refine ⟨hq, hsortR, rfl, by simp only [l₂, List.length_cons]; omega, fun q hq => ?_,
      fun q hq => hbelow q (List.mem_append_right _ hq), hQ₂⟩
    rcases List.mem_cons.mp hq with rfl | hq
    · exact le_refl _
    · exact WithBot.coe_le_coe.mpr ((sorted_cons.mp hsortR).1 q hq).le

theorem LeafInserted.trans {cap : Nat} {h h₁ : Heap K V} {lo : WithBot K} {hi : WithTop K}
    {p : Nat} {s s₁ : Span K V} {entries : List (K × V)} {r : Heap K V × Option Nat}
    (h1 : Replaces h h₁ s s₁) (h2 : LeafInserted cap Q h₁ lo hi p s₁ entries r) :
    LeafInserted cap Q h lo hi p s entries r := by
  cases h2 with
  | whole h' l leaf replaces nodes => exact .whole h' l leaf (h1.trans replaces) nodes
  | halves h' q k l₁ l₂ above below primary left right replaces nodes =>
    exact .halves h' q k l₁ l₂ above below primary left right (h1.trans replaces) nodes

theorem leafInsert_spec (hcfg : cfg.Admissible) {h : Heap K V} {lo : WithBot K} {hi : WithTop K}
    {p : Nat} {l : Leaf K V} (hl : IsLeaf cfg.maxSize Q h lo hi p l) {key : K} (val : V)
    (hlo : lo ≤ key) (hhi : (key : WithTop K) < hi) :
    ∃ r, leafInsert cfg h p key val = .ok r ∧
      LeafInserted cfg.maxSize Q h lo hi p (leafSpan p l) (upsert key val l.mList.nodes) r := by
  have h3 := hcfg.three_le
  have hlt := hcfg.lt_size
  have hmax : cfg.maxSize = cfg.order - 1 := rfl
  have hset := hl.set val hlo hhi (by omega)
  have hrep : Replaces h (h.write p (.leaf { l with mList := l.mList.set key val })) (leafSpan p l)
      (leafSpan p { l with mList := l.mList.set key val }) := replaces_writeLeaf hl.cell rfl
  have hnodes := LeafList.set_nodes l.mList key val hl.sorted
  have hsize : (l.mList.set key val).size = (l.mList.set key val).nodes.length := hset.sized
  simp only [leafInsert, derefLeaf_eq hl.cell, Outcome.ok_bind]
  rw [← hnodes]
  split
  · rename_i hfull
    obtain ⟨r, hrun, hr⟩ := leafSplit_spec cfg hset (by omega) (by rw [← hsize]; exact hfull)
    exact ⟨r, hrun, hr.trans hrep⟩
  · rename_i hfit
    refine ⟨_, rfl, .whole _ _ { hset with capacity := ?_ } hrep rfl⟩
    show (l.mList.set key val).nodes.length ≤ _
    omega

/-- Only a full leaf without the key is split. -/
theorem leafInsert_cut (hcfg : cfg.Admissible) {h h' : Heap K V} {lo : WithBot K} {hi : WithTop K}
    {p q : Nat} {l : Leaf K V} (hl : IsLeaf cfg.maxSize Q h lo hi p l) {key : K} {val : V}
    (hrun : leafInsert cfg h p key val = .ok (h', some q)) :
    cfg.maxSize ≤ l.mList.size ∧ l.mList.getValPtr key = none := by
  have hlt := hcfg.lt_size
  have h3 := hcfg.three_le
  have hmax : cfg.maxSize = cfg.order - 1 := rfl
  have hcap := hl.capacity
  have hsize : l.mList.size = l.mList.nodes.length := hl.sized
  have hset : (l.mList.set key val).size = (upsert key val l.mList.nodes).length := by
    rw [← LeafList.set_nodes l.mList key val hl.sorted]
    exact LeafList.set_sized key val hl.sized (by omega)
  simp only [leafInsert, derefLeaf_eq hl.cell, Outcome.ok_bind] at hrun
  split at hrun
  · rename_i hfull
    have hle := length_upsert_le key val l.mList.nodes
    refine ⟨by omega, ?_⟩
    by_contra hin
    have hsame := length_upsert_of_lookup val hl.sorted hin
    omega
  · cases hrun

end StateDb.Bpt
