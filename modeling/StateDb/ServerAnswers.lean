/-
  StateDb/ServerAnswers.lean
  ==========================
  **Every answer is that of one database** (`asio_server.cpp`: the handlers,
  `apply_all_connections`; `db.cpp`; `bpt.h`).

  The history of a run (`ServerHistory.lean`) is served by one database, request by request.
  What it sends in answer to a request goes to the connection of the request, and the update
  of a SET to every connection.

  For a connection that stays registered this is all that is submitted on it, but for the
  pongs; and the database may be the B+ tree in the heap.  So the clients cannot tell the
  server with its interleaved connections from a tree that serves one request at a time
  (`answers_sequential`).
-/
import StateDb.ResponseSizes
import StateDb.ServerSubmissions

namespace StateDb

open Lib

/-! ## Answers of the database -/

/-- A pong is no answer of the database. -/
def Submission.isPong : Submission → Bool
  | .pong _ => true
  | _ => false

/-- The submissions without the pongs. -/
def answersOf (us : List Submission) : List Submission := us.filter fun u => !u.isPong

theorem answersOf_append (us us' : List Submission) :
    answersOf (us ++ us') = answersOf us ++ answersOf us' :=
  List.filter_append ..

theorem answersOf_eq_self {us : List Submission} (h : ∀ u ∈ us, u.isPong = false) :
    answersOf us = us :=
  List.filter_eq_self.mpr fun u hu => by simp [h u hu]

theorem answersOf_eq_nil {us : List Submission} (h : ∀ u ∈ us, u.isPong = true) :
    answersOf us = [] :=
  List.filter_eq_nil_iff.mpr fun u hu => by simp [h u hu]

variable {w : Nat} {db : Db}

theorem answer_isPong {key : Key} {u : Submission} (h : answer w db key = .ok u) :
    u.isPong = false := by
  unfold answer at h
  split at h
  · obtain ⟨r, -, hr⟩ := bind_eq_ok.mp h
    obtain rfl := Except.ok.inj hr
    rfl
  · obtain rfl := Except.ok.inj h
    rfl

/-- What a handler of the database sends is an error or an answer. -/
theorem handle_submits {r : DbRequest} {eff : Effect} (h : r.handle w db = .ok eff) {u : Submission}
    (hu : u ∈ eff.replies ++ eff.broadcast) :
    (∃ message, u = .error message) ∨ ∃ db' key, answer w db' key = .ok u := by
  cases r with
  | get body =>
    obtain ⟨key, hkey⟩ := getRequest_submits h hu
    exact Or.inr ⟨db, key, hkey⟩
  | set body => exact setRequest_submits h hu
  | getAll =>
    obtain ⟨key, hkey⟩ := getAllRequest_submits h hu
    exact Or.inr ⟨db, key, hkey⟩

/-- No handler of the database sends a pong. -/
theorem handle_isPong {r : DbRequest} {eff : Effect} (h : r.handle w db = .ok eff) :
    ∀ u ∈ eff.replies ++ eff.broadcast, u.isPong = false := by
  intro u hu
  rcases handle_submits h hu with ⟨message, rfl⟩ | ⟨db', key, hanswer⟩
  · rfl
  · exact answer_isPong hanswer

/-- What goes to one connection is among all that is sent. -/
theorem mem_sent {eff : Effect} {p : Prop} [Decidable p] {u : Submission}
    (hu : u ∈ (if p then eff.replies else []) ++ eff.broadcast) :
    u ∈ eff.replies ++ eff.broadcast := by
  refine List.mem_append.mpr ((List.mem_append.mp hu).imp_left fun hreply => ?_)
  split at hreply
  · exact hreply
  · exact absurd hreply List.not_mem_nil

/-- What is sent on the connection `j` when these requests are served: the answers to its own,
and all updates. -/
def delivered (j : Nat) : List (Nat × DbRequest) → List Sent → List Submission
  | p :: log, s :: sent =>
      ((if p.1 = j then s.replies else []) ++ s.broadcast) ++ delivered j log sent
  | _, _ => []

/-! ## One step -/

/-- These submissions went through the writes of the connection `j`, step by step. -/
inductive Received (cfg : ServerConfig) (j : Nat) :
    Server → List ServerEvent → List Submission → Prop
  | nil (sv : Server) : Received cfg j sv [] []
  | step {sv sv' : Server} {e : ServerEvent} {es : List ServerEvent} {us us' : List Submission} :
      sv.step cfg e = some sv' → Server.Receives j sv sv' e us → Received cfg j sv' es us' →
      Received cfg j sv (e :: es) (us ++ us')

/-- What a step does to the database, and what it submits on a connection of the registry. -/
inductive StepDoes (cfg : ServerConfig) (j : Nat) (sv sv' : Server) (e : ServerEvent) : Prop
  | quiet : sv.executedIn sv' e = [] → sv'.db = sv.db →
      (∀ u ∈ Server.submittedOn cfg j sv sv' e, ∃ served, u = .pong (cfg.pongMemory served)) →
      StepDoes cfg j sv sv' e
  | executes (i : Nat) (r : DbRequest) (eff : Effect) : sv.executedIn sv' e = [(i, r)] →
      r.handle cfg.width sv.db = .ok eff → sv'.db = eff.db →
      Server.submittedOn cfg j sv sv' e = (if i = j then eff.replies else []) ++ eff.broadcast →
      StepDoes cfg j sv sv' e

theorem submittedBy_quiet {cfg : ServerConfig} {s s' : Session} (h : effectBy cfg s s' = none) :
    ∀ u ∈ submittedBy cfg s s', ∃ served, u = .pong (cfg.pongMemory served) := by
  rw [submittedBy, h]
  dsimp only
  split
  · split
    · exact fun u hu => ⟨_, List.mem_singleton.mp hu⟩
    · exact fun u hu => absurd hu List.not_mem_nil
  · exact fun u hu => absurd hu List.not_mem_nil

theorem step_does {cfg : ServerConfig} {sv sv' : Server} {e : ServerEvent} {j : Nat}
    (hstep : sv.step cfg e = some sv') (hreg : sv.isRegistered j = true) :
    StepDoes cfg j sv sv' e := by
  cases Server.step_cases hstep with
  | accept id memory stream => exact .quiet rfl rfl fun u hu => absurd hu List.not_mem_nil
  | remove _ hdb haccepted => exact .quiet rfl hdb fun u hu => absurd hu List.not_mem_nil
  | connection i a e s' hexternal ha hs' =>
    have hexec := executes_step hexternal hs'
    have hself := @Server.stepped_self cfg sv i a ha { a.session with db := sv.db } s'
    have hsubmitted : Server.submittedOn cfg j sv
        (sv.stepped cfg i { a.session with db := sv.db } s') (.connection i e) =
          if i = j then submittedBy cfg { a.session with db := sv.db } s'
          else (effectBy cfg { a.session with db := sv.db } s').elim [] Effect.broadcast := by
      simp only [Server.submittedOn, ha, hself, hreg, if_true]
    have hexecuted : sv.executedIn (sv.stepped cfg i { a.session with db := sv.db } s')
        (.connection i e) =
          (executed { a.session with db := sv.db } s').toList.map fun r => (i, r) := by
      simp only [Server.executedIn, ha, hself]
      rfl
    cases hr : executed { a.session with db := sv.db } s' with
    | none =>
      have heffect := @effectBy_none cfg _ _ hr
      refine .quiet ?_ (hexec.quiet hr) ?_
      · rw [hexecuted, hr]
        rfl
      · rw [hsubmitted, heffect]
        split
        · exact submittedBy_quiet heffect
        · exact fun u hu => absurd hu List.not_mem_nil
    | some r =>
      obtain ⟨eff, heff, hdb⟩ := hexec.request r hr
      have heffect := effectBy_some hr heff
      refine .executes i r eff ?_ heff hdb ?_
      · rw [hexecuted, hr]
        rfl
      · rw [hsubmitted, submittedBy, heffect]
        split <;> rfl

/-! ## Runs -/

/-- The connection `j` is in the registry throughout the run. -/
def StaysRegistered (cfg : ServerConfig) (j : Nat) (sv : Server) (es : List ServerEvent) : Prop :=
  ∀ before after sv₁, es = before ++ after → run (Server.step cfg) sv before = some sv₁ →
    sv₁.isRegistered j = true

/-- All that is submitted on the connection `j` in a run. -/
def Server.submissionsOn (cfg : ServerConfig) (j : Nat) :
    Server → List ServerEvent → List Submission
  | _, [] => []
  | sv, e :: es =>
      match sv.step cfg e with
      | none => []
      | some sv' => Server.submittedOn cfg j sv sv' e ++ submissionsOn cfg j sv' es

section Runs

variable {cfg : ServerConfig} {j : Nat} {es : List ServerEvent} {sv sv' : Server}

theorem Server.submissionsOn_cons {e : ServerEvent} {sv₁ : Server}
    (hstep : sv.step cfg e = some sv₁) :
    Server.submissionsOn cfg j sv (e :: es) =
      Server.submittedOn cfg j sv sv₁ e ++ Server.submissionsOn cfg j sv₁ es := by
  rw [Server.submissionsOn, hstep]

theorem Server.received (hrun : run (Server.step cfg) sv es = some sv') :
    Received cfg j sv es (Server.submissionsOn cfg j sv es) := by
  induction es generalizing sv with
  | nil => exact .nil sv
  | cons e es ih =>
    obtain ⟨sv₁, hfirst, hrest⟩ := run_cons_eq_some.mp hrun
    rw [Server.submissionsOn_cons hfirst]
    exact .step hfirst (Server.step_receives hfirst j) (ih hrest)

theorem StaysRegistered.start (h : StaysRegistered cfg j sv es) : sv.isRegistered j = true :=
  h [] es sv rfl rfl

theorem StaysRegistered.rest {e : ServerEvent} {sv₁ : Server}
    (h : StaysRegistered cfg j sv (e :: es)) (hfirst : sv.step cfg e = some sv₁) :
    StaysRegistered cfg j sv₁ es := by
  intro before after sv₂ heq hbefore
  exact h (e :: before) after sv₂ (by rw [heq]; rfl) (run_cons_eq_some.mpr ⟨sv₁, hfirst, hbefore⟩)

/-- Only `handle_accept` and `handle_connection_remove` change the registry. -/
theorem staysRegistered_of_connections (hreg : sv.isRegistered j = true)
    (hes : ∀ e ∈ es, ∃ i event, e = .connection i event) : StaysRegistered cfg j sv es := by
  intro before after sv₁ heq hrun
  subst heq
  induction before generalizing sv with
  | nil =>
    obtain rfl := Option.some.inj hrun
    exact hreg
  | cons e before ih =>
    obtain ⟨sv₂, hfirst, hrest⟩ := run_cons_eq_some.mp hrun
    obtain ⟨i, event, rfl⟩ := hes e List.mem_cons_self
    refine ih ?_ hrest fun e he => hes e (List.mem_cons_of_mem _ he)
    cases Server.step_cases hfirst with
    | connection _ a _ s' _ _ _ => exact hreg

/-- The connection is sent what the history of the run sends it. -/
theorem run_answers (hrun : run (Server.step cfg) sv es = some sv')
    (hreg : StaysRegistered cfg j sv es) :
    ∃ sent, serve cfg.width sv.db ((Server.history cfg sv es).map Prod.snd) = (sent, .ok sv'.db) ∧
      answersOf (Server.submissionsOn cfg j sv es) =
        delivered j (Server.history cfg sv es) sent := by
  induction es generalizing sv with
  | nil =>
    obtain rfl := Option.some.inj hrun
    exact ⟨[], rfl, rfl⟩
  | cons e es ih =>
    obtain ⟨sv₁, hfirst, hrest⟩ := run_cons_eq_some.mp hrun
    obtain ⟨sent, hserve, hanswers⟩ := ih hrest (hreg.rest hfirst)
    rw [Server.submissionsOn_cons hfirst, Server.history, hfirst]
    dsimp only
    cases step_does hfirst hreg.start with
    | quiet hnone hdb hpongs =>
      refine ⟨sent, ?_, ?_⟩
      · rw [hnone, List.nil_append, ← hdb]
        exact hserve
      · have hnil : answersOf (Server.submittedOn cfg j sv sv₁ e) = [] := by
          refine answersOf_eq_nil fun u hu => ?_
          obtain ⟨served, rfl⟩ := hpongs u hu
          rfl
        rw [answersOf_append, hnil, hanswers, hnone]
        rfl
    | executes i r eff hexec heff hdb hsubmitted =>
      refine ⟨⟨eff.replies, eff.broadcast⟩ :: sent, ?_, ?_⟩
      · rw [hexec, List.singleton_append, List.map_cons, serve, heff]
        dsimp only
        rw [← hdb, hserve]
      · have hpongs : ∀ u ∈ (if i = j then eff.replies else []) ++ eff.broadcast,
            u.isPong = false :=
          fun u hu => handle_isPong heff u (mem_sent hu)
        rw [answersOf_append, hsubmitted, answersOf_eq_self hpongs, hanswers, hexec]
        rfl

/-- The same with a B+ tree that serves the requests. -/
theorem run_tree {before : List ServerEvent}
    (hbefore : run (Server.step cfg) { db := Db.empty } before = some sv)
    (hrun : run (Server.step cfg) sv es = some sv') (hreg : StaysRegistered cfg j sv es) :
    ∃ t t' sent sent',
      Returns (fun fuel => DbTree.serve Bpt.Order.six.config cfg.width fuel {}
        ((Server.history cfg { db := Db.empty } before).map Prod.snd)) (sent, .ok t) ∧
      Returns (fun fuel => DbTree.serve Bpt.Order.six.config cfg.width fuel t
        ((Server.history cfg sv es).map Prod.snd)) (sent', .ok t') ∧
      sv'.db.InTree t' ∧
      answersOf (Server.submissionsOn cfg j sv es) =
        delivered j (Server.history cfg sv es) sent' := by
  obtain ⟨sent, hserve⟩ := ((Server.recorded_start cfg).run hbefore).serves
  obtain ⟨sent', hserve', hanswers⟩ := run_answers hrun hreg
  -- the two halves of the history on the tree
  have hfirst := @DbTree.serve_refines cfg.width Db.empty {} Db.empty_inTree
    ((Server.history cfg { db := Db.empty } before).map Prod.snd)
  rw [List.nil_append] at hserve
  rw [hserve] at hfirst
  obtain ⟨left, hreturns, hleft⟩ := hfirst
  cases hleft with
  | @ok _ t ht =>
    have hsecond := @DbTree.serve_refines cfg.width sv.db t ht
      ((Server.history cfg sv es).map Prod.snd)
    rw [hserve'] at hsecond
    obtain ⟨left', hreturns', hleft'⟩ := hsecond
    cases hleft' with
    | @ok _ t' ht' => exact ⟨t, t', sent, sent', hreturns, hreturns', ht', hanswers⟩

end Runs

/-- In every run of the server: what is submitted on a connection while it is registered are, but
for pongs, the answers to its requests and the updates that one B+ tree sends which serves
the requests of all connections in the order of the history. -/
theorem answers_sequential {cfg : ServerConfig} {es es' : List ServerEvent} {sv sv' : Server}
    (hbefore : run (Server.step cfg) { db := Db.empty } es = some sv)
    (hrun : run (Server.step cfg) sv es' = some sv') {j : Nat}
    (hreg : StaysRegistered cfg j sv es') :
    ∃ t t' sent sent' us,
      Returns (fun fuel => DbTree.serve Bpt.Order.six.config cfg.width fuel {}
        ((Server.history cfg { db := Db.empty } es).map Prod.snd)) (sent, .ok t) ∧
      Returns (fun fuel => DbTree.serve Bpt.Order.six.config cfg.width fuel t
        ((Server.history cfg sv es').map Prod.snd)) (sent', .ok t') ∧
      sv'.db.InTree t' ∧ Received cfg j sv es' us ∧
      answersOf us = delivered j (Server.history cfg sv es') sent' := by
  obtain ⟨t, t', sent, sent', hreturns, hreturns', ht', hanswers⟩ := run_tree hbefore hrun hreg
  exact ⟨t, t', sent, sent', _, hreturns, hreturns', ht', Server.received hrun, hanswers⟩

/-- Two clients are connected. -/
def connected : List ServerEvent :=
  [.accept 10 (fun _ => 0) (hello ++ [4, 0, 0, 5, 0, 0, 0] ++ setAbSeven.body),
    .accept 11 (fun _ => 0) (hello ++ [5, 0, 0, 0, 0, 0, 0]),
    .connection 0 (.read 6), .connection 1 (.read 6)]

/-- One asks for everything, and then the other one sets a key. -/
def watched : List ServerEvent :=
  [.connection 1 (.read 7), .connection 0 (.read 7), .connection 0 (.read 5)]

theorem answers_sequential_watched : ∃ sv sv' t' sent us,
    run (Server.step ⟨64, false, fun _ => 0⟩) { db := Db.empty } connected = some sv ∧
    run (Server.step ⟨64, false, fun _ => 0⟩) sv watched = some sv' ∧ sv'.db.InTree t' ∧
    Received ⟨64, false, fun _ => 0⟩ 1 sv watched us ∧
    answersOf us = delivered 1 (Server.history ⟨64, false, fun _ => 0⟩ sv watched) sent := by
  obtain ⟨t, t', before, sent, us, -, -, ht', hreceived, hanswers⟩ :=
    @answers_sequential ⟨64, false, fun _ => 0⟩ connected watched _ _ rfl rfl 1
      (staysRegistered_of_connections rfl (by simp [watched]))
  exact ⟨_, _, t', sent, us, rfl, rfl, ht', hreceived, hanswers⟩

end StateDb
