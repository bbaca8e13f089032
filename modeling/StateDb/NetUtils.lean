/-
  StateDb/NetUtils.lean
  =====================
  **Bytes that are skipped** (`net_utils.h`, `net_utils.cpp`).

  The bytes are read into a buffer that is thrown away, which is allocated once, for the whole
  count or for `STATEDB_NET_TRASH_BUF_SIZE`.  The callback of a read has the count of the bytes
  that were left before it; it either gives the socket the next read, or deletes the buffer and
  calls the handler.

  Whatever the reads of the socket bring, they come to an end, and no byte behind the count is
  taken (`skips_exactly`).
-/
import StateDb.Lib.Run
import StateDb.SegmentContainer

namespace StateDb

open Lib

/-! ## The steps of a skip -/

/-- `STATEDB_NET_TRASH_BUF_SIZE`, an `int`. -/
def netTrashBufSize : Int := 256

/-- `n -= bytes` for an `int` and a `size_t`: the difference is a `size_t`, and `n` takes its last
32 bits. -/
def intSub (n : Int) (bytes : Nat) : Int := Int.bmod (n - bytes) 4294967296

/-- `std::min(STATEDB_NET_TRASH_BUF_SIZE, n)`, as the size of a buffer. -/
def trashSize (n : Int) : Nat := asSizeT (min netTrashBufSize n)

/-- A read that was given to the socket: the `n` that is bound to its callback, and the bytes that
it asks for. -/
structure SkipRead where
  n : Int
  requested : Nat
deriving DecidableEq, Repr

/-- How a read ends. -/
structure ReadOutcome where
  failed : Bool
  bytes : Nat
deriving DecidableEq, Repr

/-- The socket reads no more than it was asked for, and something unless it fails or was asked for
nothing. -/
def ReadOutcome.Answers (o : ReadOutcome) (requested : Nat) : Prop :=
  o.bytes ≤ requested ∧ (o.failed = true ∨ 0 < o.bytes ∨ requested = 0)

instance (o : ReadOutcome) (requested : Nat) : Decidable (o.Answers requested) :=
  inferInstanceAs (Decidable (_ ∧ _))

structure Skip where
  /-- The bytes that were allocated. -/
  bufferSize : Nat
  outstanding : Option SkipRead := none
  /-- The bytes that were taken from the socket. -/
  consumed : Nat := 0
  /-- How often the buffer was deleted. -/
  released : Nat := 0
  /-- The calls of the handler, with success or not. -/
  called : List Bool := []
  /-- The assertion failed. -/
  aborted : Bool := false
deriving DecidableEq, Repr

namespace Skip

/-- `async_skip_impl`, with the `n` that is bound to it. -/
def asyncSkipImpl (asserts : Bool) (s : Skip) (n : Int) (o : ReadOutcome) : Skip :=
  if asserts = true ∧ ¬ o.bytes ≤ asSizeT n then { s with aborted := true }
  else
    let n := intSub n o.bytes
    if o.failed = true ∨ n = 0 then
      { s with released := s.released + 1, called := s.called ++ [!o.failed] }
    else { s with outstanding := some ⟨n, trashSize n⟩ }

/-- The read of the socket ends. -/
def step (asserts : Bool) (s : Skip) (o : ReadOutcome) : Option Skip :=
  match s.outstanding with
  | none => none
  | some r =>
      if o.Answers r.requested then
        some (asyncSkipImpl asserts { s with outstanding := none, consumed := s.consumed + o.bytes }
          r.n o)
      else none

end Skip

/-- `async_skip_bytes`. -/
def asyncSkipBytes (n : Int) : Skip :=
  let size := trashSize n
  { bufferSize := size, outstanding := some ⟨n, size⟩ }

/-! ## What is left -/

theorem intSub_of_le {n bytes : Nat} (hint : n < 2147483648) (hle : bytes ≤ n) :
    intSub n bytes = ((n - bytes : Nat) : Int) := by
  rw [intSub, Int.bmod_eq_of_le_mul_two (by omega) (by omega)]
  omega

theorem asSizeT_of_lt {n : Nat} (hint : n < 2147483648) : asSizeT n = n := by
  unfold asSizeT
  omega

theorem trashSize_eq {n : Nat} (hint : n < 2147483648) : trashSize n = min 256 n := by
  unfold trashSize netTrashBufSize asSizeT
  omega

/-- Where a skip of so many bytes is. -/
inductive SkipPhase (total : Nat) (s : Skip) : Prop
  | reading (r : SkipRead) : s.outstanding = some r → r.n = ((total - s.consumed : Nat) : Int) →
      r.requested = min 256 (total - s.consumed) → s.consumed ≤ total →
      (s.consumed < total ∨ total = 0) → s.called = [] → s.released = 0 → SkipPhase total s
  | ended (ok : Bool) : s.outstanding = none → s.consumed ≤ total →
      (ok = true → s.consumed = total) → s.called = [ok] → s.released = 1 → SkipPhase total s

/-- The buffer, which no step changes, and the assertion. -/
structure SkipInvariant (total : Nat) (s : Skip) : Prop where
  phase : SkipPhase total s
  bufferSize : s.bufferSize = min 256 total
  aborted : s.aborted = false

theorem skipInvariant_start {total : Nat} (hint : total < 2147483648) :
    SkipInvariant total (asyncSkipBytes total) := by
  refine ⟨.reading ⟨total, trashSize total⟩ rfl rfl (trashSize_eq hint) (Nat.zero_le _) ?_ rfl rfl,
    trashSize_eq hint, rfl⟩
  exact (Nat.eq_zero_or_pos total).symm

/-- What a read does: it is the last one, or the next one is given to the socket. -/
theorem SkipInvariant.step (asserts : Bool) {total : Nat} (hint : total < 2147483648) {s : Skip}
    (h : SkipInvariant total s) {r : SkipRead} (hout : s.outstanding = some r) {o : ReadOutcome}
    (hanswers : o.Answers r.requested) : ∃ s', s.step asserts o = some s' ∧ SkipInvariant total s' ∧
      ((s'.outstanding = none ∧ s.consumed ≤ s'.consumed) ∨ s.consumed < s'.consumed) := by
  cases h.phase with
  | ended ok hnone => exact absurd (hout.symm.trans hnone) (by simp)
  | reading r' hout' hn hrequested hle hsome hcalled hreleased =>
    obtain rfl := Option.some.inj (hout.symm.trans hout')
    obtain ⟨hbytes, hprogress⟩ := hanswers
    have hfits : o.bytes ≤ total - s.consumed := by omega
    have hassert : ¬ (asserts = true ∧ ¬ o.bytes ≤ asSizeT r.n) := by
      rintro ⟨-, hnot⟩
      rw [hn, asSizeT_of_lt (by omega)] at hnot
      exact hnot hfits
    have hsub : intSub r.n o.bytes = ((total - (s.consumed + o.bytes) : Nat) : Int) := by
      rw [hn, intSub_of_le (by omega) hfits, Nat.sub_sub]
    have hstep : s.step asserts o = some (Skip.asyncSkipImpl asserts
        { s with outstanding := none, consumed := s.consumed + o.bytes } r.n o) := by
      simp only [Skip.step, hout]
      exact if_pos ⟨hbytes, hprogress⟩
    refine ⟨_, hstep, ?_⟩
    rw [Skip.asyncSkipImpl, if_neg hassert]
    dsimp only
    rw [hsub]
    by_cases hlast : o.failed = true ∨ ((total - (s.consumed + o.bytes) : Nat) : Int) = 0
    · rw [if_pos hlast]
      refine ⟨⟨.ended (!o.failed) rfl (by simp only; omega) ?_ (by rw [hcalled]; rfl)
        (by rw [hreleased]), h.bufferSize, h.aborted⟩, Or.inl ⟨rfl, Nat.le_add_right _ _⟩⟩
      intro hok
      have hzero := hlast.resolve_left (by simpa using hok)
      simp only
      omega
    · rw [if_neg hlast]
      obtain ⟨hfine, hmore⟩ := not_or.mp hlast
      refine ⟨⟨.reading _ rfl rfl (trashSize_eq (by omega)) (by simp only; omega)
        (Or.inl (by simp only; omega)) hcalled hreleased, h.bufferSize, h.aborted⟩, Or.inr ?_⟩
      have hpos := hprogress.resolve_left hfine
      simp only
      omega

/-! ## Every run -/

/-- In each state of a skip of so many bytes. -/
structure SkipsExactly (total : Nat) (s : Skip) : Prop where
  /-- A read asks for no more than what is left, and than what the buffer holds. -/
  request : ∀ r ∈ s.outstanding, r.requested ≤ total - s.consumed ∧ r.requested ≤ s.bufferSize
  consumed_le : s.consumed ≤ total
  success : true ∈ s.called → s.consumed = total
  unfinished : s.outstanding ≠ none → s.called = [] ∧ s.released = 0
  finished : s.outstanding = none → s.called.length = 1 ∧ s.released = 1
  asserted : s.aborted = false

theorem SkipInvariant.exactly {total : Nat} {s : Skip} (h : SkipInvariant total s) :
    SkipsExactly total s := by
  cases h.phase with
  | reading r hout hn hrequested hle hsome hcalled hreleased =>
    constructor
    · intro r' hr'
      obtain rfl := Option.some.inj (hout.symm.trans hr')
      rw [hrequested, h.bufferSize]
      omega
    · exact hle
    · intro hmem
      rw [hcalled] at hmem
      cases hmem
    · intro _
      exact ⟨hcalled, hreleased⟩
    · intro hnone
      rw [hout] at hnone
      cases hnone
    · exact h.aborted
  | ended ok hnone hle hok hcalled hreleased =>
    constructor
    · intro r hr
      rw [hnone] at hr
      cases hr
    · exact hle
    · intro hmem
      rw [hcalled] at hmem
      exact hok (List.mem_singleton.mp hmem).symm
    · intro hsome
      exact absurd hnone hsome
    · intro _
      rw [hcalled, hreleased]
      exact ⟨rfl, rfl⟩
    · exact h.aborted

/-- Each outcome answers the read that it ends. -/
def AnswersAll (asserts : Bool) (total : Nat) (os : Nat → ReadOutcome) : Prop :=
  ∀ k s, run (Skip.step asserts) (asyncSkipBytes total) (firsts os k) = some s →
    ∀ r ∈ s.outstanding, (os k).Answers r.requested

theorem skipInvariant_run {asserts : Bool} {total : Nat} (hint : total < 2147483648)
    {os : List ReadOutcome} {s : Skip}
    (hrun : run (Skip.step asserts) (asyncSkipBytes total) os = some s) :
    SkipInvariant total s := by
  have hstep : ∀ {s : Skip} {o : ReadOutcome} {s' : Skip}, SkipInvariant total s → True →
      s.step asserts o = some s' → SkipInvariant total s' := by
    intro s o s' h _ hstep
    cases hout : s.outstanding with
    | none => simp [Skip.step, hout] at hstep
    | some r =>
      have hanswers : o.Answers r.requested := by
        by_contra hnot
        simp [Skip.step, hout, hnot] at hstep
      obtain ⟨s₁, hstep₁, hinv, -⟩ := h.step asserts hint hout hanswers
      obtain rfl := Option.some.inj (hstep₁.symm.trans hstep)
      exact hinv
  exact run_invariant (SkipInvariant total) hstep (skipInvariant_start hint)
    (.of_forall (p := fun _ => True) (fun _ _ => trivial) _) hrun

/-- In every run no byte too many is taken and the handler is called once at most, with success
only after all of them; and every sequence of outcomes leads to its end, where the handler was
called and the buffer deleted once. -/
theorem skips_exactly (asserts : Bool) {total : Nat} (hint : total < 2147483648) :
    (∀ os s, run (Skip.step asserts) (asyncSkipBytes total) os = some s → SkipsExactly total s) ∧
    ∀ os : Nat → ReadOutcome, AnswersAll asserts total os →
      ∃ k s, run (Skip.step asserts) (asyncSkipBytes total) (firsts os k) = some s ∧
        s.outstanding = none := by
  refine ⟨fun os s hrun => (skipInvariant_run hint hrun).exactly, ?_⟩
  intro os hanswers
  -- what is left of the bytes, and one more while a read is outstanding
  refine exists_final (fun s : Skip => s.outstanding = none)
    (fun s : Skip => total - s.consumed + if s.outstanding = none then 0 else 1) ?_
  intro k s hrun hnot
  obtain ⟨r, hout⟩ := Option.ne_none_iff_exists'.mp hnot
  obtain ⟨s', hstep, h', hprogress⟩ :=
    (skipInvariant_run hint hrun).step asserts hint hout (hanswers k s hrun r hout)
  refine ⟨s', hstep, ?_⟩
  have hle := h'.exactly.consumed_le
  rw [if_neg hnot]
  rcases hprogress with ⟨hnone, hsame⟩ | hmore
  · rw [if_pos hnone]
    omega
  · split <;> omega

/-- 300 bytes, which come in two reads; the buffer has 256. -/
theorem skips_exactly_300 : run (Skip.step true) (asyncSkipBytes (300 : Nat))
    [⟨false, 256⟩, ⟨false, 44⟩] = some ⟨256, none, 300, 1, [true], false⟩ ∧
    SkipsExactly 300 ⟨256, none, 300, 1, [true], false⟩ := by
  have hrun : run (Skip.step true) (asyncSkipBytes (300 : Nat)) [⟨false, 256⟩, ⟨false, 44⟩] =
      some ⟨256, none, 300, 1, [true], false⟩ := by decide
  exact ⟨hrun, (skips_exactly true (by decide)).1 _ _ hrun⟩

end StateDb
