/-
  StateDb/BptFrame.lean
  =====================
  **What an update of a subtree leaves alone.**

  `Frame h h' foot`: outside `foot` every allocated cell is as it was, and no list
  node changes its key.  `Replaces h h' s s'`: the span `s'` in `h'` takes the
  place of the span `s` in `h`, with the cells of `s` and new ones, and with its
  leaves linked where those of `s` were.  Updates compose (`Replaces.trans`), and
  an update of one child is an update of its parent (`Replaces.child`).
-/
import StateDb.BptSearch

namespace StateDb.Bpt

open Lib Lib.SortedAssoc

variable {K V : Type}

/-! ## Keys -/

namespace KeysKept

theorem refl (h : Heap K V) : KeysKept h h := fun _ n hn => ⟨n, hn, rfl⟩

theorem trans {h₁ h₂ h₃ : Heap K V} (h12 : KeysKept h₁ h₂) (h23 : KeysKept h₂ h₃) :
    KeysKept h₁ h₃ := by
  intro a n hn
  obtain ⟨n', hn', heq'⟩ := h12 a n hn
  obtain ⟨n'', hn'', heq''⟩ := h23 a n' hn'
  exact ⟨n'', hn'', heq''.trans heq'⟩

theorem alloc (h : Heap K V) (c : Cell K V) : KeysKept h (h.alloc c) := fun _ n hn =>
  ⟨n, by rw [CellStore.read_alloc_of_lt (CellStore.lt_fresh_of_read hn), hn], rfl⟩

/-- What is no list node is overwritten. -/
theorem write_other {h : Heap K V} {a : Nat} {c : Cell K V} (hc : h.read a = some c)
    (hother : ∀ n : ListNode K, c ≠ .listNode n) (c' : Cell K V) : KeysKept h (h.write a c') := by
  intro b n hn
  have hne : b ≠ a := by
    rintro rfl
    rw [hn] at hc
    exact hother n (Option.some.inj hc).symm
  exact ⟨n, by rw [CellStore.read_write_of_ne hne, hn], rfl⟩

/-- A list node is overwritten by one with its key. -/
theorem write_listNode {h : Heap K V} {a : Nat} {n n' : ListNode K}
    (hc : h.read a = some (.listNode n)) (hkey : n'.key = n.key) :
    KeysKept h (h.write a (.listNode n')) := by
  intro b m hm
  by_cases hb : b = a
  · subst hb
    rw [hm] at hc
    obtain rfl : m = n := by simpa using hc
    exact ⟨n', CellStore.read_write_self hm, hkey⟩
  · exact ⟨m, by rw [CellStore.read_write_of_ne hb, hm], rfl⟩

end KeysKept

/-! ## Frames -/

structure Frame (h h' : Heap K V) (foot : List Nat) : Prop where
  fresh_le : h.fresh ≤ h'.fresh
  same : ∀ a, a < h.fresh → a ∉ foot → h'.read a = h.read a
  keys : KeysKept h h'

namespace Frame

variable {h h₁ h₂ : Heap K V} {foot : List Nat}

theorem refl (h : Heap K V) (foot : List Nat) : Frame h h foot :=
  ⟨Nat.le_refl _, fun _ _ _ => rfl, KeysKept.refl h⟩

/-- The second update may touch what the first one may, and what it allocated. -/
theorem trans {foot₂ : List Nat} (h1 : Frame h h₁ foot) (h2 : Frame h₁ h₂ foot₂)
    (hsub : ∀ a ∈ foot₂, a ∈ foot ∨ h.fresh ≤ a) : Frame h h₂ foot := by
  refine ⟨h1.fresh_le.trans h2.fresh_le, ?_, h1.keys.trans h2.keys⟩
  intro a hlt ha
  have ha₂ : a ∉ foot₂ := fun hin => (hsub a hin).elim ha fun hge => absurd hlt (by omega)
  rw [h2.same a (by have := h1.fresh_le; omega) ha₂, h1.same a hlt ha]

theorem mono {foot₂ : List Nat} (h1 : Frame h h₁ foot) (hsub : foot ⊆ foot₂) :
    Frame h h₁ foot₂ :=
  ⟨h1.fresh_le, fun a hlt ha => h1.same a hlt fun hin => ha (hsub hin), h1.keys⟩

theorem alloc (hf : Frame h h₁ foot) (c : Cell K V) : Frame h (h₁.alloc c) foot := by
  refine ⟨?_, ?_, hf.keys.trans (KeysKept.alloc h₁ c)⟩
  · rw [CellStore.fresh_alloc]
    exact Nat.le_succ_of_le hf.fresh_le
  · intro a hlt ha
    rw [CellStore.read_alloc_of_lt (Nat.lt_of_lt_of_le hlt hf.fresh_le), hf.same a hlt ha]

theorem write {a : Nat} {c : Cell K V} (hf : Frame h h₁ foot) (ha : a ∈ foot ∨ h.fresh ≤ a)
    (hk : KeysKept h₁ (h₁.write a c)) : Frame h (h₁.write a c) foot := by
  refine ⟨by rw [CellStore.fresh_write]; exact hf.fresh_le, fun b hlt hb => ?_,
    hf.keys.trans hk⟩
  have hne : b ≠ a := by
    rintro rfl
    exact ha.elim hb fun hge => absurd hlt (by omega)
  rw [CellStore.read_write_of_ne hne, hf.same b hlt hb]

end Frame

/-! ## Spans in a heap -/

/-- Spans side by side. -/
def Span.join (ts : List (Span K V)) : Span K V :=
  ⟨ts.flatMap Span.entries, ts.flatMap Span.leaves, ts.flatMap Span.foot⟩

/-- A span of distinct allocated cells, its leaves among them. -/
structure Owns (h : Heap K V) (s : Span K V) : Prop where
  nodup : s.foot.Nodup
  leaves : s.leaves ⊆ s.foot
  allocated : ∀ a ∈ s.foot, a < h.fresh

/-- `s'` in `h'` takes the place of `s` in `h`. -/
structure Replaces (h h' : Heap K V) (s s' : Span K V) : Prop where
  frame : Frame h h' s.foot
  owns : Owns h' s'
  foot : ∀ a ∈ s'.foot, a ∈ s.foot ∨ h.fresh ≤ a
  chain : ∀ nx, LeafChain h s.leaves nx → LeafChain h' s'.leaves nx
  head : s'.leaves.head? = s.leaves.head?

namespace Replaces

variable {h h₁ h₂ : Heap K V} {s s₁ s₂ : Span K V}

theorem trans (h1 : Replaces h h₁ s s₁) (h2 : Replaces h₁ h₂ s₁ s₂) : Replaces h h₂ s s₂ where
  frame := h1.frame.trans h2.frame h1.foot
  owns := h2.owns
  foot a ha := by
    rcases h2.foot a ha with ha | ha
    · exact h1.foot a ha
    · exact Or.inr (h1.frame.fresh_le.trans ha)
  chain nx hc := h2.chain nx (h1.chain nx hc)
  head := h2.head.trans h1.head

/-- Cells that no longer belong to anything are forgotten. -/
theorem forget (h1 : Replaces h h₁ s s₁) (hfoot : List.Sublist s₂.foot s₁.foot)
    (hleaves : s₂.leaves = s₁.leaves) (hsub : s₂.leaves ⊆ s₂.foot) : Replaces h h₁ s s₂ where
  frame := h1.frame
  owns := ⟨h1.owns.nodup.sublist hfoot, hsub, fun a ha => h1.owns.allocated a (hfoot.subset ha)⟩
  foot a ha := h1.foot a (hfoot.subset ha)
  chain nx hc := hleaves ▸ h1.chain nx hc
  head := hleaves ▸ h1.head

end Replaces

/-! ## An update of one child -/

/-- A span between two others, with the cells `own` of the node above. -/
def Span.around (own : List Nat) (l : Span K V) (t : Span K V) (r : Span K V) : Span K V :=
  ⟨l.entries ++ t.entries ++ r.entries, l.leaves ++ (t.leaves ++ r.leaves),
    (own ++ l.foot) ++ t.foot ++ r.foot⟩

theorem Span.join_singleton (t : Span K V) : Span.join [t] = t := by
  simp [Span.join]

theorem Span.join_leaves_subset {ts : List (Span K V)} (h : ∀ t ∈ ts, t.leaves ⊆ t.foot) :
    (Span.join ts).leaves ⊆ (Span.join ts).foot := by
  intro a ha
  obtain ⟨t, ht, ha⟩ := List.mem_flatMap.mp ha
  exact List.mem_flatMap.mpr ⟨t, ht, h t ht ha⟩

theorem internalSpan_eq_around (p : Nat) (seps : List (Sep K)) (before ts after : List (Span K V)) :
    internalSpan p seps (before ++ (ts ++ after)) =
      Span.around (p :: seps.map Sep.node) (Span.join before) (Span.join ts) (Span.join after) := by
  simp [internalSpan, Span.around, Span.join]

/-- A part of a list of distinct elements is exchanged. -/
theorem nodup_exchange {L M M' R : List Nat} (h : (L ++ M ++ R).Nodup) (hM' : M'.Nodup)
    (hnew : ∀ a ∈ M', a ∈ M ∨ a ∉ L ++ R) : (L ++ M' ++ R).Nodup := by
  simp only [List.nodup_append, List.mem_append] at h hnew ⊢
  grind

theorem Replaces.around {h h₁ : Heap K V} {own : List Nat} {l t t' r : Span K V}
    (hs : Owns h (Span.around own l t r)) (hl : l.leaves ⊆ l.foot) (hright : r.leaves ⊆ r.foot)
    (hr : Replaces h h₁ t t') :
    Replaces h h₁ (Span.around own l t r) (Span.around own l t' r) := by
  obtain ⟨hnd, hsub, halloc⟩ := hs
  simp only [Span.around] at hnd hsub halloc
  have hout : ∀ a ∈ (own ++ l.foot) ++ r.foot, a < h.fresh ∧ a ∉ t.foot := by
    intro a ha
    refine ⟨halloc a ?_, ?_⟩
    · simp only [List.mem_append] at ha ⊢
      tauto
    · intro hin
      simp only [List.nodup_append, List.mem_append] at hnd ha
      grind
  -- the leaves at both sides stay where they are
  have hsame : ∀ a, a ∈ l.leaves ∨ a ∈ r.leaves → h₁.read a = h.read a := by
    intro a ha
    obtain ⟨hlt, hnot⟩ := hout a (by
      simp only [List.mem_append]
      exact ha.imp (fun hin => Or.inr (hl hin)) fun hin => hright hin)
    exact hr.frame.same a hlt hnot
  refine ⟨hr.frame.mono ?_, ⟨?_, ?_, ?_⟩, ?_, ?_, ?_⟩
  · intro a ha
    simp [Span.around, ha]
  · refine nodup_exchange hnd hr.owns.nodup ?_
    intro a ha
    rcases hr.foot a ha with hin | hge
    · exact Or.inl hin
    · exact Or.inr fun hin => absurd (hout a hin).1 (by omega)
  · intro a ha
    simp only [Span.around, List.mem_append] at ha ⊢
    rcases ha with ha | ha | ha
    · exact Or.inl (Or.inl (Or.inr (hl ha)))
    · exact Or.inl (Or.inr (hr.owns.leaves ha))
    · exact Or.inr (hright ha)
  · intro a ha
    by_cases hin : a ∈ t'.foot
    · exact hr.owns.allocated a hin
    · have hlt : a < h.fresh := (hout a (by
        simp only [Span.around, List.mem_append] at ha ⊢
        tauto)).1
      exact Nat.lt_of_lt_of_le hlt hr.frame.fresh_le
  · intro a ha
    by_cases hin : a ∈ t'.foot
    · refine (hr.foot a hin).imp (?_) id
      intro hin
      simp [Span.around, hin]
    · refine Or.inl ?_
      simp only [Span.around, List.mem_append] at ha ⊢
      tauto
  · intro nx hc
    simp only [Span.around, leafChain_append] at hc ⊢
    obtain ⟨hcl, hct, hcr⟩ := hc
    refine ⟨?_, hr.chain _ hct, hcr.frame fun a ha => hsame a (Or.inr ha)⟩
    rw [List.head?_append, hr.head, ← List.head?_append]
    exact hcl.frame fun a ha => hsame a (Or.inl ha)
  · simp only [Span.around, List.head?_append, hr.head]

/-- An update of a child is an update of the node. -/
theorem Replaces.child {h h₁ : Heap K V} {p : Nat} {seps : List (Sep K)}
    {before after : List (Span K V)} {t : Span K V} (ts : List (Span K V))
    (hs : Owns h (internalSpan p seps (before ++ t :: after)))
    (hbefore : ∀ u ∈ before, u.leaves ⊆ u.foot) (hafter : ∀ u ∈ after, u.leaves ⊆ u.foot)
    (hr : Replaces h h₁ t (Span.join ts)) :
    Replaces h h₁ (internalSpan p seps (before ++ t :: after))
      (internalSpan p seps (before ++ (ts ++ after))) := by
  have heq : internalSpan p seps (before ++ t :: after) =
      Span.around (p :: seps.map Sep.node) (Span.join before) t (Span.join after) := by
    rw [← Span.join_singleton t, ← internalSpan_eq_around, Span.join_singleton]
    rfl
  rw [heq] at hs ⊢
  rw [internalSpan_eq_around]
  exact Replaces.around hs (Span.join_leaves_subset hbefore) (Span.join_leaves_subset hafter) hr

/-! ## Representations under a frame -/

section Representation

variable [LinearOrder K] {cfg : Config} {Q : LeafPolicy K V} {h h₁ : Heap K V}

theorem Rep.owns {d : Nat} {lo : WithBot K} {hi : WithTop K} {p : Nat} {s : Span K V}
    (hr : Rep cfg Q h d lo hi p s) (hnd : s.foot.Nodup) : Owns h s :=
  ⟨hnd, hr.leaves_subset, hr.lt_fresh⟩

/-- A kind of subtrees: they are represented within depth `d`, and stay of the kind while
their cells stay. -/
structure Stable (cfg : Config) (Q : LeafPolicy K V) (d : Nat)
    (P : Heap K V → WithBot K → WithTop K → Nat → Span K V → Prop) : Prop where
  rep : ∀ {h : Heap K V} {lo : WithBot K} {hi : WithTop K} {p : Nat} {s : Span K V},
    P h lo hi p s → Rep cfg Q h d lo hi p s
  frame : ∀ {h h' : Heap K V}, KeysKept h h' → ∀ {lo : WithBot K} {hi : WithTop K} {p : Nat}
    {s : Span K V}, P h lo hi p s → (∀ a ∈ s.foot, h'.read a = h.read a) → P h' lo hi p s

variable (cfg Q) in
theorem Rep.stable (d : Nat) : Stable cfg Q d (fun h => Rep cfg Q h d) where
  rep hr := hr
  frame hk _ _ _ _ hr hsame := hr.frame hk hsame

namespace Stable

variable {d : Nat} {P : Heap K V → WithBot K → WithTop K → Nat → Span K V → Prop}

/-- A node without a cell that occurs twice owns its cells. -/
theorem owns (hP : Stable cfg Q d P) {lo : WithBot K} {hi : WithTop K} {p : Nat} {n : Internal}
    {seps : List (Sep K)} {tail : Option Nat} {spans : List (Span K V)}
    (hn : IsInternal cfg.maxSize h (P h) lo hi p n seps tail spans)
    (hnd : (internalSpan p seps spans).foot.Nodup) : Owns h (internalSpan p seps spans) :=
  Rep.owns (d := d + 1) (Or.inr (Or.inr ⟨n, seps, tail, spans, hn.mono fun _ _ _ _ => hP.rep, rfl⟩))
    hnd

/-- Subtrees away from an update are where they were. -/
theorem away (hP : Stable cfg Q d P) {foot : List Nat} (hf : Frame h h₁ foot) {lo : WithBot K}
    {hi : WithTop K} {p : Nat} {s : Span K V} (hr : P h lo hi p s)
    (hdisj : ∀ a ∈ s.foot, a ∉ foot) : P h₁ lo hi p s :=
  hP.frame hf.keys hr fun a ha => hf.same a ((hP.rep hr).lt_fresh a ha) (hdisj a ha)

theorem forall₂_away (hP : Stable cfg Q d P) {foot : List Nat} (hf : Frame h h₁ foot)
    {sls : List (Slot K)} {us : List (Span K V)}
    (hr : List.Forall₂ (fun sl s => P h sl.low sl.high sl.child s) sls us)
    (hdisj : ∀ u ∈ us, ∀ a ∈ u.foot, a ∉ foot) :
    List.Forall₂ (fun sl s => P h₁ sl.low sl.high sl.child s) sls us :=
  forall₂_imp_of_mem hr fun _ u _ hu hc => hP.away hf hc (hdisj u hu)

end Stable

end Representation

end StateDb.Bpt
