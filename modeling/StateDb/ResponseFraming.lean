/-
  StateDb/ResponseFraming.lean
  ============================
  **Whole responses on the wire** (`handle_write_operation`, `async_write_raw`,
  `send_value`, `send_key_not_found`, `async_write_error`).

  A client reads a preamble, and then the body of that response if the preamble
  announces one.  It reads whole responses as long as no key-updated preamble completes
  while the first write of the queue is the preamble of a response of two writes
  (`responses_framed`): that preamble would go behind its own body.
-/
import StateDb.Responses

namespace StateDb

open Lib

/-! ## What a client reads -/

/-- The client expects a preamble, or the body of a response. -/
def frameStep : Option Response → Part → Option (Option Response)
  | none, .preamble r => some (if r.size = 0 then none else some r)
  | none, .body _ => none
  | some r, .body r' => if r' = r then some none else none
  | some _, .preamble _ => none

/-- The wire carries whole responses, but for the body that is still to come while the
socket has a write. -/
def Framed (c : TcpConnection Part) : Prop :=
  ∃ awaiting, run frameStep none c.sent = some awaiting ∧
    (c.writes.outstanding = [] → awaiting = none)

/-- The size that the preamble announces is that of the body. -/
def Response.Honest (r : Response) : Prop := r.size = r.body.length

theorem frame_parts {r : Response} (hr : r.Honest) :
    run frameStep none r.parts = some none := by
  by_cases hbody : r.body = []
  · have hsize : r.size = 0 := by rw [hr, hbody, List.length_nil]
    simp [Response.parts, hbody, run, frameStep, hsize]
  · have hsize : r.size ≠ 0 := by
      rw [hr]
      intro hzero
      exact hbody (List.length_eq_zero_iff.mp hzero)
    simp [Response.parts, hbody, run, frameStep, hsize]

theorem frame_responses {rs : List Response} (hrs : ∀ r ∈ rs, r.Honest) :
    run frameStep none (rs.flatMap Response.parts) = some none := by
  induction rs with
  | nil => rfl
  | cons r rs ih =>
    rw [List.flatMap_cons, run_append_eq_some]
    exact ⟨none, frame_parts (hrs r List.mem_cons_self),
      ih fun r' hr' => hrs r' (List.mem_cons_of_mem _ hr')⟩

/-! ## Runs -/

inductive ResponseEvent where
  | submit (u : Submission)
  /-- The write of the socket succeeds, with its whole buffer. -/
  | written

def responseStep (c : TcpConnection Part) : ResponseEvent → Option (TcpConnection Part)
  | .submit u => some (c.submit u)
  | .written => c.written

/-- A response announces its size, and no body takes the slot while a response of two
writes is at the front of the queue. -/
def Undivided (c : TcpConnection Part) : ResponseEvent → Prop
  | .submit u => u.response.Honest
  | .written => c.StartsBody → ∀ op ∈ c.writes.pending.head?, ¬ op.leadsBody

/-- The connection serves responses that announce their sizes. -/
def ServesHonest (c : TcpConnection Part) : Prop :=
  c.Orderly ∧ ∃ done q, Serving c done q ∧ (∀ r ∈ done, r.Honest) ∧
    (∀ u ∈ q.current, u.response.Honest) ∧ ∀ u ∈ q.pending, u.response.Honest

theorem servesHonest_fresh (memory : Nat → Nat) :
    ServesHonest (TcpConnection.fresh memory) := by
  refine ⟨⟨Or.inl ⟨rfl, rfl⟩, fun _ hop => absurd hop List.not_mem_nil⟩, [], ⟨none, []⟩,
    .idle rfl rfl, ?_⟩
  simp

theorem servesHonest_step {c c' : TcpConnection Part} {e : ResponseEvent} (h : ServesHonest c)
    (hcond : Undivided c e) (hstep : responseStep c e = some c') : ServesHonest c' := by
  obtain ⟨hc, done, ⟨current, pending⟩, hserving, hdone, hcurrent, hpending⟩ := h
  cases e with
  | submit u =>
    obtain rfl := Option.some.inj hstep
    obtain ⟨hc', hserving'⟩ := serving_submit hc hserving u
    refine ⟨hc', done, _, hserving', hdone, ?_⟩
    cases current with
    | none => exact ⟨fun u' hu' => by simpa using (by simpa using hu' : u = u') ▸ hcond, hpending⟩
    | some u₀ =>
      refine ⟨hcurrent, ?_⟩
      intro u' hu'
      rcases List.mem_append.mp hu' with hold | hnew
      · exact hpending u' hold
      · rw [List.mem_singleton.mp hnew]
        exact hcond
  | written =>
    obtain ⟨hc', hcases⟩ := serving_written hc hserving hstep hcond
    refine ⟨hc', ?_⟩
    rcases hcases with ⟨u, hu, hnext⟩ | hbody | ⟨-, -, u, hu, hrotated⟩
    · refine ⟨done ++ [u.response], _, hnext, ?_, ?_, ?_⟩
      · intro r hr
        rcases List.mem_append.mp hr with hold | hnew
        · exact hdone r hold
        · rw [List.mem_singleton.mp hnew]
          exact hcurrent u hu
      · intro u' hu'
        rw [Slot.complete_quiet] at hu'
        exact hpending u' (List.mem_of_mem_head? hu')
      · intro u' hu'
        rw [Slot.complete_quiet] at hu'
        exact hpending u' (List.mem_of_mem_tail hu')
    · exact ⟨done, _, hbody, hdone, hcurrent, hpending⟩
    · refine ⟨done, _, hrotated, hdone, ?_, ?_⟩
      · intro u' hu'
        rw [← Option.some.inj hu']
        exact hcurrent u hu
      · intro u' hu'
        exact hpending u' (List.mem_rotate.mp hu')

theorem framed_of_serves {c : TcpConnection Part} (h : ServesHonest c) : Framed c := by
  obtain ⟨-, done, q, hserving, hdone, hcurrent, -⟩ := h
  have hrun := frame_responses hdone
  cases hserving with
  | idle hslot hsent => exact ⟨none, hsent ▸ hrun, fun _ => rfl⟩
  | preamble u op ops waiting hops hslot hsent => exact ⟨none, hsent ▸ hrun, fun _ => rfl⟩
  | body u waiting hbody hslot hsent =>
    have hsize : u.response.size ≠ 0 := by
      rw [hcurrent u rfl]
      intro hzero
      exact hbody (List.length_eq_zero_iff.mp hzero)
    refine ⟨some u.response, ?_, ?_⟩
    · rw [hsent, run_append_eq_some]
      exact ⟨none, hrun, by simp [run, frameStep, hsize]⟩
    · intro hout
      exact absurd (congrArg Slot.current hslot) (by simp [TcpConnection.writeSlot, hout])

/-- In every run of submissions and completions whose steps are all undivided, the wire
carries whole responses. -/
theorem responses_framed {memory : Nat → Nat} {es : List ResponseEvent} {c : TcpConnection Part}
    (hcond : Along responseStep Undivided (TcpConnection.fresh memory) es)
    (hrun : run responseStep (TcpConnection.fresh memory) es = some c) : Framed c :=
  framed_of_serves (run_invariant ServesHonest servesHonest_step (servesHonest_fresh memory) hcond
    hrun)

/-- The key-updated response for the key `ab` with the `int8` 7. -/
def updateAb : Response := ⟨responseKeyUpdate, 5, keyAb.bytes ++ [dtypeInt8, 7]⟩

/-- A pong waits behind a key-updated response. -/
theorem responses_framed_pong : ∃ c, run responseStep (TcpConnection.fresh fun _ => 0)
    [.submit (.keyUpdated updateAb), .submit (.pong 0), .written] = some c ∧ Framed c := by
  refine ⟨_, rfl, @responses_framed _
    [.submit (.keyUpdated updateAb), .submit (.pong 0), .written] _ ?_ rfl⟩
  refine ⟨rfl, ?_⟩
  intro c₁ h₁
  obtain rfl := Option.some.inj h₁
  refine ⟨rfl, ?_⟩
  intro c₂ h₂
  obtain rfl := Option.some.inj h₂
  refine ⟨?_, fun _ _ => trivial⟩
  intro _ op hop hlead
  obtain rfl := Option.some.inj hop
  exact hlead.1 rfl

/-- A key-not-found waits behind a key-updated response, and its body comes to the wire
before its preamble. -/
theorem keyNotFound_divided : ∃ c, run responseStep (TcpConnection.fresh fun _ => 0)
    [.submit (.keyUpdated updateAb), .submit (.keyNotFound keyBA), .written, .written, .written] =
      some c ∧ updateAb.Honest ∧ (sendKeyNotFound keyBA).Honest ∧ ¬ Framed c := by
  refine ⟨_, rfl, rfl, rfl, ?_⟩
  rintro ⟨awaiting, hframe, -⟩
  cases hframe

end StateDb
