/-
  StateDb/Lib/Chain.lean
  ======================
  **Singly linked lists in a store of cells.**

  A chain is the nodes that are linked from a pointer on, with their addresses.  The pointer
  determines the chain, so a chain that ends in null passes no address twice, and what is written
  elsewhere leaves it alone.  `Exchange` is what an operation on one chain does to the store: the
  cells it held gave way to the cells it holds, which are old ones or were free, and every other
  cell is as it was.  Exchanges compose.
-/
import StateDb.Lib.CellStore

namespace StateDb.Lib

/-- A node: what it carries, and the pointer to the next one. -/
structure Link (α : Type) where
  item : α
  next : Option Nat := none
deriving DecidableEq, Repr

variable {α : Type}

/-! ## Chains -/

/-- The cells are linked from `p` on, and `t` comes behind. -/
def Chain (s : CellStore (Link α)) : Option Nat → List (Nat × α) → Option Nat → Prop
  | p, [], t => p = t
  | p, c :: cs, t => p = some c.1 ∧ ∃ next, s.read c.1 = some ⟨c.2, next⟩ ∧ Chain s next cs t

/-- Where the cells lie. -/
def addresses (cells : List (Nat × α)) : List Nat := cells.map Prod.fst

/-- What the cells carry. -/
def items (cells : List (Nat × α)) : List α := cells.map Prod.snd

@[simp] theorem addresses_nil : addresses ([] : List (Nat × α)) = [] := rfl

@[simp] theorem addresses_cons (c : Nat × α) (cs : List (Nat × α)) :
    addresses (c :: cs) = c.1 :: addresses cs := rfl

@[simp] theorem addresses_append (cs ds : List (Nat × α)) :
    addresses (cs ++ ds) = addresses cs ++ addresses ds := List.map_append

@[simp] theorem length_addresses (cells : List (Nat × α)) :
    (addresses cells).length = cells.length := List.length_map _

@[simp] theorem items_nil : items ([] : List (Nat × α)) = [] := rfl

@[simp] theorem items_cons (c : Nat × α) (cs : List (Nat × α)) :
    items (c :: cs) = c.2 :: items cs := rfl

@[simp] theorem items_append (cs ds : List (Nat × α)) :
    items (cs ++ ds) = items cs ++ items ds := List.map_append

@[simp] theorem length_items (cells : List (Nat × α)) : (items cells).length = cells.length :=
  List.length_map _

section Chains

variable {s s' : CellStore (Link α)} {p t : Option Nat} {cells left right : List (Nat × α)}
  {c : Nat × α}

theorem chain_append :
    Chain s p (left ++ right) t ↔ ∃ q, Chain s p left q ∧ Chain s q right t := by
  induction left generalizing p with
  | nil => simp [Chain]
  | cons c cs ih =>
    simp only [List.cons_append, Chain, ih]
    constructor
    · rintro ⟨hp, next, hcell, q, hleft, hright⟩
      exact ⟨q, ⟨hp, next, hcell, hleft⟩, hright⟩
    · rintro ⟨q, ⟨hp, next, hcell, hleft⟩, hright⟩
      exact ⟨hp, next, hcell, q, hleft, hright⟩

/-- A chain, seen from one of its nodes. -/
theorem chain_append_cons : Chain s p (left ++ c :: right) t ↔ Chain s p left (some c.1) ∧
    ∃ next, s.read c.1 = some ⟨c.2, next⟩ ∧ Chain s next right t := by
  rw [chain_append]
  constructor
  · rintro ⟨q, hleft, rfl, hright⟩
    exact ⟨hleft, hright⟩
  · rintro ⟨hleft, hright⟩
    exact ⟨some c.1, hleft, rfl, hright⟩

theorem Chain.frame (h : Chain s p cells t) (hsame : ∀ a ∈ addresses cells, s'.read a = s.read a) :
    Chain s' p cells t := by
  induction cells generalizing p with
  | nil => exact h
  | cons c cs ih =>
    obtain ⟨hp, next, hcell, hrest⟩ := h
    refine ⟨hp, next, ?_, ih hrest fun a ha => hsame a (List.mem_cons_of_mem _ ha)⟩
    rw [hsame c.1 List.mem_cons_self, hcell]

/-- The cells of a chain are allocated. -/
theorem Chain.read_of_mem (h : Chain s p cells t) {a : Nat} (ha : a ∈ addresses cells) :
    ∃ n, s.read a = some n := by
  induction cells generalizing p with
  | nil => cases ha
  | cons c cs ih =>
    obtain ⟨-, next, hcell, hrest⟩ := h
    rcases List.mem_cons.mp ha with rfl | ha
    · exact ⟨_, hcell⟩
    · exact ih hrest ha

theorem Chain.unique {cells' : List (Nat × α)} (h : Chain s p cells none)
    (h' : Chain s p cells' none) : cells = cells' := by
  induction cells generalizing p cells' with
  | nil =>
    cases cells' with
    | nil => rfl
    | cons c' cs' =>
      have hp : none = p := h.symm
      cases hp.trans h'.1
  | cons c cs ih =>
    obtain ⟨rfl, next, hcell, hrest⟩ := h
    cases cells' with
    | nil => cases h'
    | cons c' cs' =>
      obtain ⟨hp, next', hcell', hrest'⟩ := h'
      have haddr : c.1 = c'.1 := Option.some.inj hp
      rw [← haddr, hcell] at hcell'
      obtain ⟨hitem, rfl⟩ := Link.mk.inj (Option.some.inj hcell')
      rw [ih hrest hrest', Prod.ext haddr hitem]

/-- A chain that ends passes no address twice: from there on it would be longer than itself. -/
theorem Chain.nodup (h : Chain s p cells none) : (addresses cells).Nodup := by
  induction cells generalizing p with
  | nil => exact List.nodup_nil
  | cons c cs ih =>
    obtain ⟨rfl, next, hcell, hrest⟩ := h
    refine List.nodup_cons.mpr ⟨?_, ih hrest⟩
    intro hin
    obtain ⟨d, hd, haddr⟩ := List.mem_map.mp hin
    obtain ⟨left, right, rfl⟩ := List.append_of_mem hd
    obtain ⟨-, again⟩ := chain_append_cons.mp hrest
    have hsame : Chain s (some c.1) (d :: right) none := ⟨congrArg some haddr.symm, again⟩
    have hall : Chain s (some c.1) (c :: (left ++ d :: right)) none := ⟨rfl, next, hcell, hrest⟩
    have hlen := congrArg List.length (hall.unique hsame)
    simp only [List.length_cons, List.length_append] at hlen
    omega

theorem Chain.alloc (h : Chain s p cells t) (x : Link α) : Chain (s.alloc x) p cells t := by
  refine h.frame ?_
  intro a ha
  obtain ⟨n, hn⟩ := h.read_of_mem ha
  exact CellStore.read_alloc_of_lt (CellStore.lt_fresh_of_read hn)

theorem Chain.write (h : Chain s p cells t) {a : Nat} (ha : a ∉ addresses cells) (x : Link α) :
    Chain (s.write a x) p cells t := by
  refine h.frame ?_
  intro b hb
  exact CellStore.read_write_of_ne fun heq => ha (heq ▸ hb)

theorem Chain.free (h : Chain s p cells t) {a : Nat} (ha : a ∉ addresses cells) :
    Chain (s.free a) p cells t := by
  refine h.frame ?_
  intro b hb
  exact CellStore.read_free_of_ne fun heq => ha (heq ▸ hb)

theorem Chain.fresh_not_mem (h : Chain s p cells t) : s.fresh ∉ addresses cells := by
  intro hin
  obtain ⟨n, hn⟩ := h.read_of_mem hin
  rw [CellStore.read_fresh] at hn
  cases hn

/-- The addresses on both sides of a node are other ones. -/
theorem Chain.apart (h : Chain s p (left ++ c :: right) none) :
    c.1 ∉ addresses left ∧ c.1 ∉ addresses right := by
  have hnodup := h.nodup
  rw [addresses_append, addresses_cons, List.nodup_append, List.nodup_cons] at hnodup
  obtain ⟨-, ⟨hright, -⟩, hdisj⟩ := hnodup
  exact ⟨fun hin => hdisj _ hin _ List.mem_cons_self rfl, hright⟩

/-- One node of a chain is overwritten, and what hangs behind it from then on is a chain. -/
theorem Chain.relink {next : Option Nat} {right' : List (Nat × α)} {x : α}
    (h : Chain s p (left ++ c :: right) none)
    (hright : Chain (s.write c.1 ⟨x, next⟩) next right' none) :
    Chain (s.write c.1 ⟨x, next⟩) p (left ++ (c.1, x) :: right') none := by
  obtain ⟨hleft, old, hcell, -⟩ := chain_append_cons.mp h
  exact chain_append_cons.mpr
    ⟨hleft.write h.apart.1 _, next, CellStore.read_write_self hcell, hright⟩

/-- What a node carries is assigned. -/
theorem Chain.assign {next : Option Nat} (h : Chain s p (left ++ c :: right) none)
    (hcell : s.read c.1 = some ⟨c.2, next⟩) (x : α) :
    Chain (s.write c.1 ⟨x, next⟩) p (left ++ (c.1, x) :: right) none := by
  obtain ⟨-, next', hcell', hright⟩ := chain_append_cons.mp h
  obtain rfl : next = next' := congrArg Link.next (Option.some.inj (hcell.symm.trans hcell'))
  exact h.relink (hright.write h.apart.2 _)

/-- A node is put in front of a chain. -/
theorem Chain.push {a : Nat} {n : Link α} (h : Chain s p cells t) (hcell : s.read a = some n)
    (ha : a ∉ addresses cells) (x : α) : Chain (s.write a ⟨x, p⟩) (some a) ((a, x) :: cells) t :=
  ⟨rfl, p, CellStore.read_write_self hcell, h.write ha _⟩

/-- A node is put behind a node of a chain. -/
theorem Chain.insert {a : Nat} {n : Link α} {next : Option Nat}
    (h : Chain s p (left ++ c :: right) none) (hcell : s.read c.1 = some ⟨c.2, next⟩)
    (hnew : s.read a = some n) (ha : a ∉ addresses (left ++ c :: right)) (x : α) :
    Chain ((s.write a ⟨x, next⟩).write c.1 ⟨c.2, some a⟩) p
      (left ++ c :: (a, x) :: right) none := by
  obtain ⟨-, next', hcell', hright⟩ := chain_append_cons.mp h
  obtain rfl : next = next' := congrArg Link.next (Option.some.inj (hcell.symm.trans hcell'))
  obtain ⟨hne, haright⟩ : a ≠ c.1 ∧ a ∉ addresses right := by
    rw [addresses_append, List.mem_append, not_or, addresses_cons, List.mem_cons, not_or] at ha
    exact ha.2
  refine (h.write ha _).relink ((hright.push hnew haright x).write ?_ _)
  rw [addresses_cons, List.mem_cons, not_or]
  exact ⟨Ne.symm hne, h.apart.2⟩

/-- A chain is cut behind a node. -/
theorem Chain.cut {next : Option Nat} (h : Chain s p (left ++ c :: right) none)
    (hcell : s.read c.1 = some ⟨c.2, next⟩) :
    Chain (s.write c.1 ⟨c.2, none⟩) p (left ++ [c]) none ∧
      Chain (s.write c.1 ⟨c.2, none⟩) next right none := by
  obtain ⟨-, next', hcell', hright⟩ := chain_append_cons.mp h
  obtain rfl : next = next' := congrArg Link.next (Option.some.inj (hcell.symm.trans hcell'))
  exact ⟨h.relink rfl, hright.write h.apart.2 _⟩

/-- The node behind a node is taken out of a chain and freed. -/
theorem Chain.unlink {d : Nat × α} {next : Option Nat}
    (h : Chain s p (left ++ c :: d :: right) none) (hcell : s.read d.1 = some ⟨d.2, next⟩) :
    Chain ((s.write c.1 ⟨c.2, next⟩).free d.1) p (left ++ c :: right) none := by
  obtain ⟨-, -, -, -, next', hcell', hright⟩ := chain_append_cons.mp h
  obtain rfl : next = next' := congrArg Link.next (Option.some.inj (hcell.symm.trans hcell'))
  have hmid : Chain s p ((left ++ [c]) ++ d :: right) none := by rwa [List.append_assoc]
  have hc : c.1 ∉ addresses right := fun hin => h.apart.2 (List.mem_cons_of_mem _ hin)
  refine (h.relink (hright.write hc _)).free ?_
  simpa [and_assoc] using hmid.apart

end Chains

/-! ## Exchanges -/

/-- The cells at `old` gave way to the cells at `new`. -/
structure Exchange (s s' : CellStore α) (old new : List Nat) : Prop where
  frame : ∀ a x, s.read a = some x → a ∉ old → s'.read a = some x
  taken : ∀ a ∈ new, a ∈ old ∨ s.read a = none
  live : s'.live + old.length = s.live + new.length

namespace Exchange

variable {s s' s'' : CellStore α} {old mid new : List Nat}

theorem refl (s : CellStore α) (old : List Nat) : Exchange s s old old :=
  ⟨fun _ _ h _ => h, fun _ h => Or.inl h, rfl⟩

theorem trans (h : Exchange s s' old mid) (h' : Exchange s' s'' mid new) :
    Exchange s s'' old new := by
  refine ⟨?_, ?_, ?_⟩
  · intro a x hx hold
    refine h'.frame a x (h.frame a x hx hold) ?_
    intro hmid
    rcases h.taken a hmid with hin | hnone
    · exact hold hin
    · rw [hx] at hnone
      cases hnone
  · intro a hnew
    rcases h'.taken a hnew with hmid | hnone
    · exact h.taken a hmid
    · by_contra hnot
      obtain ⟨hold, hread⟩ := not_or.mp hnot
      obtain ⟨x, hx⟩ := Option.ne_none_iff_exists'.mp hread
      rw [h.frame a x hx hold] at hnone
      cases hnone
  · have h₁ := h.live
    have h₂ := h'.live
    omega

theorem perm (h : Exchange s s' old mid) (hperm : mid.Perm new) : Exchange s s' old new :=
  ⟨h.frame, fun a ha => h.taken a (hperm.mem_iff.mpr ha), hperm.length_eq ▸ h.live⟩

theorem alloc (s : CellStore α) (x : α) (old : List Nat) :
    Exchange s (s.alloc x) old (s.fresh :: old) := by
  refine ⟨?_, ?_, ?_⟩
  · intro a y hy _
    rw [CellStore.read_alloc_of_lt (CellStore.lt_fresh_of_read hy), hy]
  · intro a ha
    rcases List.mem_cons.mp ha with rfl | ha
    · exact Or.inr (CellStore.read_fresh s)
    · exact Or.inl ha
  · rw [CellStore.live_alloc, List.length_cons]
    omega

theorem write {a : Nat} {y : α} (hcell : s.read a = some y) (hin : a ∈ old) (x : α) :
    Exchange s (s.write a x) old old := by
  refine ⟨?_, fun _ h => Or.inl h, ?_⟩
  · intro b z hz hb
    have hne : b ≠ a := fun heq => hb (heq ▸ hin)
    rw [CellStore.read_write_of_ne hne, hz]
  · rw [CellStore.live_write hcell]

theorem free {a : Nat} {y : α} (hcell : s.read a = some y) (hold : old.Perm (a :: new)) :
    Exchange s (s.free a) old new := by
  refine ⟨?_, ?_, ?_⟩
  · intro b z hz hb
    have hne : b ≠ a := fun heq => hb (hold.mem_iff.mpr (heq ▸ List.mem_cons_self))
    rw [CellStore.read_free_of_ne hne, hz]
  · intro b hb
    exact Or.inl (hold.mem_iff.mpr (List.mem_cons_of_mem a hb))
  · have hlive := CellStore.live_free_add_one hcell
    rw [hold.length_eq, List.length_cons]
    omega

/-- A chain elsewhere is left alone. -/
theorem chain {s s' : CellStore (Link α)} {p t : Option Nat} {cells : List (Nat × α)}
    (h : Exchange s s' old new) (hchain : Chain s p cells t)
    (happart : ∀ a ∈ addresses cells, a ∉ old) : Chain s' p cells t := by
  refine hchain.frame ?_
  intro a ha
  obtain ⟨n, hn⟩ := hchain.read_of_mem ha
  rw [hn, h.frame a n hn (happart a ha)]

end Exchange

end StateDb.Lib
