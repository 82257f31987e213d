/-
**Who speaks for whom.**

A request names the term and the node it speaks for.  The node should hold that role when the
request is built: the leader of the term for AppendEntries and InstallSnapshot, a candidate with its
own vote for RequestVote.  `send_heartbeat` and `confirm_leadership` check the role under the lock
that builds the request; `replicate_to_peers` and `request_votes` rely on a check made under an
earlier one.  So a request is out of role exactly when another request got in between and took the
role away.

Main definitions:

* `RaftVibe.Cluster.SpeaksFor` — the sender holds the role that the request claims;
* `RaftVibe.Cluster.DeposesInGap` — a request reaches a node between its two locks, and makes it
  step down;
* `RaftVibe.Cluster.Wins` — a candidate becomes leader.

Main results:

* `RaftVibe.Cluster.InRole.of_step` — one step keeps nodes in role, and sends in role;
* `RaftVibe.Cluster.run_in_role` — **every request is built in role**, and who is heard as leader
  of a term has won it.
-/

import RaftVibe.RaftServerSpec

set_option relaxedAutoImplicit false
set_option autoImplicit false

namespace RaftVibe

open Runs

variable {σ μ : Type}

/-- The request makes a leader or candidate step down. -/
def RaftCore.Deposes (core : RaftCore σ μ) : Request → Prop
  | .requestVote args => core.currentTerm < args.term
  | .appendEntries args => core.currentTerm ≤ args.term
  | .installSnapshot args => core.currentTerm < args.term

instance (core : RaftCore σ μ) (request : Request) : Decidable (core.Deposes request) := by
  cases request <;> unfold RaftCore.Deposes <;> infer_instance

/-- The node has checked or taken its role, and has yet to build its requests. -/
def Task.InGap : Task → Prop
  | submitted _ _ => True
  | electing => True
  | _ => False

instance (task : Task) : Decidable task.InGap := by
  cases task <;> unfold Task.InGap <;> infer_instance

namespace Cluster

/-- A request makes its target step down between the two locks. -/
def DeposesInGap (C : Cluster σ μ) : Action → Prop
  | .deliver envelope => (C.servers envelope.target).task.InGap ∧
      (C.core envelope.target).Deposes envelope.request
  | .local _ _ => False

instance (C : Cluster σ μ) (action : Action) : Decidable (C.DeposesInGap action) := by
  cases action <;> unfold DeposesInGap <;> infer_instance

/-- The node that the request names holds the role that the request claims. -/
def SpeaksFor (C : Cluster σ μ) : Request → Prop
  | .requestVote args => (C.core args.candidateId).state = .candidate ∧
      (C.core args.candidateId).currentTerm = args.term ∧
      (C.core args.candidateId).votedFor = some args.candidateId
  | .appendEntries args => (C.core args.leaderId).state = .leader ∧
      (C.core args.leaderId).currentTerm = args.term
  | .installSnapshot args => (C.core args.leaderId).state = .leader ∧
      (C.core args.leaderId).currentTerm = args.term

instance (C : Cluster σ μ) (request : Request) : Decidable (C.SpeaksFor request) := by
  cases request <;> unfold SpeaksFor <;> infer_instance

/-- What a transition sends. -/
def sent (t : Transition (Cluster σ μ) Action) : List Envelope :=
  t.target.requests.drop t.source.requests.length

/-- Candidate `n` becomes leader of the term `T`. -/
def Wins (t : Transition (Cluster σ μ) Action) (n T : ℕ) : Prop :=
  (t.source.core n).state = .candidate ∧ (t.target.core n).state = .leader ∧
    (t.target.core n).currentTerm = T

instance (t : Transition (Cluster σ μ) Action) (n T : ℕ) : Decidable (Wins t n T) := by
  unfold Wins
  infer_instance

/-- The leader that a request names, with its term. -/
def claims : Request → Option (ℕ × ℕ)
  | .requestVote _ => none
  | .appendEntries args => some (args.leaderId, args.term)
  | .installSnapshot args => some (args.leaderId, args.term)

/-- **Nodes are in role** after the run `ts`: whoever is between two locks holds the role it has
checked, and whoever leads or is named as a leader has won the term. -/
structure InRole (ts : List (Transition (Cluster σ μ) Action)) (C : Cluster σ μ) : Prop where
  id_eq : ∀ n ∈ C.nodes, (C.core n).id = n
  submitted : ∀ n ∈ C.nodes, ∀ command i, (C.servers n).task = .submitted command i →
    (C.core n).state = .leader
  electing : ∀ n ∈ C.nodes, (C.servers n).task = .electing →
    (C.core n).state = .candidate ∧ (C.core n).votedFor = some n
  won : ∀ n ∈ C.nodes, (C.core n).state = .leader → ∃ t ∈ ts, Wins t n (C.core n).currentTerm
  named : ∀ envelope ∈ C.requests, ∀ l T, claims envelope.request = some (l, T) →
    ∃ t ∈ ts, Wins t l T

variable [Storage σ] [Snapshotable μ]

theorem Initial.inRole {C : Cluster σ μ} (h : C.Initial) : InRole [] C := by
  have hcore : ∀ n ∈ C.nodes, (C.core n).id = n ∧ (C.core n).state = .follower := by
    intro n hn
    obtain ⟨peers, storage, m, threshold, core, hnew, heq, hterm, hvote, hlog, hsnap, -, -⟩ :=
      h.boot n hn
    rw [RaftCore.new_eq_fresh hterm hvote hlog hsnap, Except.ok.injEq] at hnew
    rw [Cluster.core, heq, ← hnew]
    exact ⟨rfl, rfl⟩
  refine ⟨fun n hn => (hcore n hn).1, ?_, ?_, ?_, ?_⟩
  · intro n hn command i ht
    rw [h.idle n hn] at ht
    exact absurd ht (by simp)
  · intro n hn ht
    rw [h.idle n hn] at ht
    exact absurd ht (by simp)
  · intro n hn hl
    rw [(hcore n hn).2] at hl
    exact absurd hl (by simp)
  · intro envelope he
    rw [h.requests] at he
    simp at he

/-- A request that deposes nobody leaves the role, the term and a vote that was cast. -/
theorem receive_of_not_deposes {core core' : RaftCore σ μ} {request : Request} {reply : Reply}
    (hno : ¬ core.Deposes request) (h : Server.receive core request = .ok (core', reply)) :
    core.SameRole core' ∧ ∀ c, core.votedFor = some c → core'.votedFor = some c := by
  rcases Server.receive_ok h with
    ⟨args, _, rfl, -, h⟩ | ⟨args, _, rfl, -, h⟩ | ⟨args, _, rfl, -, h⟩
  · rcases RaftCore.handleRequestVote_ok h with
      ⟨-, rfl, -⟩ | ⟨core₁, h₁, -, hor⟩
    · exact ⟨⟨rfl, rfl⟩, fun _ hc => hc⟩
    · rcases RaftCore.observeTerm_ok h₁ with ⟨-, rfl⟩ | ⟨hlt, -⟩
      · rcases hor with ⟨rfl, -⟩ | ⟨hvote, -, hset, -⟩
        · exact ⟨⟨rfl, rfl⟩, fun _ hc => hc⟩
        · obtain ⟨-, rfl⟩ := RaftCore.setVotedFor_ok.1 hset
          refine ⟨⟨rfl, rfl⟩, fun c hc => ?_⟩
          rw [hc] at hvote
          exact (hvote.resolve_left (by simp)).symm
      · exact absurd hlt hno
  · obtain ⟨core₁, h₁, ⟨-, rfl, -⟩ | ⟨hterm, -⟩⟩ := RaftCore.handleAppendEntries_ok h
    · rcases RaftCore.observeTerm_ok h₁ with ⟨-, rfl⟩ | ⟨hlt, -⟩
      · exact ⟨⟨rfl, rfl⟩, fun _ hc => hc⟩
      · exact absurd (Nat.le_of_lt hlt) hno
    · have := RaftCore.observeTerm_currentTerm h₁
      exact absurd (show core.currentTerm ≤ args.term by omega) hno
  · rcases RaftCore.handleInstallSnapshot_ok h with ⟨-, rfl, -⟩ | ⟨core₁, core₂, h₁, -, rfl, hor⟩
    · exact ⟨⟨rfl, rfl⟩, fun _ hc => hc⟩
    · rcases RaftCore.observeTerm_ok h₁ with ⟨-, rfl⟩ | ⟨hlt, -⟩
      · rcases hor with ⟨_, _, rfl, -⟩ | ⟨-, _, _, -, -, rfl, -⟩ <;>
          exact ⟨⟨rfl, rfl⟩, fun _ hc => hc⟩
      · exact absurd hlt hno

variable {C C' : Cluster σ μ} {ts : List (Transition (Cluster σ μ) Action)}

omit [Storage σ] [Snapshotable μ] in
/-- A term won stays won. -/
theorem Wins.append {t : Transition (Cluster σ μ) Action} {n T : ℕ}
    (h : ∃ u ∈ ts, Wins u n T) : ∃ u ∈ ts ++ [t], Wins u n T := by
  obtain ⟨u, hu, hw⟩ := h
  exact ⟨u, List.mem_append_left _ hu, hw⟩

/-- A request that is handled keeps nodes in role, unless it comes between two locks. -/
theorem InRole.deliver (h : InRole ts C) {envelope : Envelope} (hgap : ¬ C.DeposesInGap
    (.deliver envelope)) (hs : C.step (.deliver envelope) = some C') :
    InRole (ts ++ [⟨C, .deliver envelope, C'⟩]) C' := by
  obtain ⟨-, core, reply, hr, rfl⟩ := step_deliver hs
  have hcore : ∀ n, n = envelope.target ∧ (C.receive envelope core reply).core n = core ∨
      n ≠ envelope.target ∧ (C.receive envelope core reply).core n = C.core n := by
    intro n
    rcases eq_or_ne n envelope.target with rfl | hn
    · exact Or.inl ⟨rfl, by rw [Cluster.core, receive_servers_self]⟩
    · exact Or.inr ⟨hn, by rw [Cluster.core, receive_servers_ne _ _ _ hn, Cluster.core]⟩
  have htask : ∀ n, ((C.receive envelope core reply).servers n).task = (C.servers n).task := by
    intro n
    rcases eq_or_ne n envelope.target with rfl | hn
    · rw [receive_servers_self]
    · rw [receive_servers_ne _ _ _ hn]
  -- who is between two locks is not deposed
  have hkeep : ∀ n, (C.servers n).task.InGap →
      (C.core n).SameRole ((C.receive envelope core reply).core n) ∧
        ∀ c, (C.core n).votedFor = some c →
          ((C.receive envelope core reply).core n).votedFor = some c := by
    intro n hn
    rcases hcore n with ⟨rfl, heq⟩ | ⟨-, heq⟩ <;> rw [heq]
    · exact receive_of_not_deposes (fun hd => hgap ⟨hn, hd⟩) hr
    · exact ⟨⟨rfl, rfl⟩, fun _ hc => hc⟩
  refine ⟨?_, ?_, ?_, ?_, ?_⟩
  · intro n hn
    rcases hcore n with ⟨rfl, heq⟩ | ⟨-, heq⟩ <;> rw [heq]
    · exact (Server.receive_sameNode hr).1.trans (h.id_eq _ hn)
    · exact h.id_eq n hn
  · intro n hn command i ht
    rw [htask] at ht
    rw [(hkeep n (by simp [ht, Task.InGap])).1.1]
    exact h.submitted n hn command i ht
  · intro n hn ht
    rw [htask] at ht
    have hk := hkeep n (by simp [ht, Task.InGap])
    rw [hk.1.1]
    exact ⟨(h.electing n hn ht).1, hk.2 n (h.electing n hn ht).2⟩
  · intro n hn hl
    refine Wins.append ?_
    rcases hcore n with ⟨rfl, heq⟩ | ⟨-, heq⟩ <;> rw [heq] at hl ⊢
    · have hrole := Server.receive_role hr (by rw [hl]; simp)
      rw [hrole.2]
      exact h.won _ hn (hrole.1.symm.trans hl)
    · exact h.won n hn hl
  · intro env he l T hclaim
    exact Wins.append (h.named env he l T hclaim)

/-- A request in role names the node that sends it. -/
theorem speaksFor_of_sent (h : InRole ts C) {n : ℕ} (hn : n ∈ C.nodes) {now : ℕ}
    {action : LocalAction} {e : Effect σ μ} (ha : Acts (C.servers n) now action e)
    {envelope : Envelope} (he : envelope ∈ e.sent) : C.SpeaksFor envelope.request ∧
      ∀ l T, claims envelope.request = some (l, T) →
        l = n ∧ T = (C.core n).currentTerm ∧ (C.core n).state = .leader := by
  have hid := h.id_eq n hn
  obtain ⟨-, -, -, -, hor⟩ := ha.sent_cases he
  have happend : ∀ args : AppendEntriesArgs, (C.core n).state = .leader →
      args.leaderId = (C.core n).id → args.term = (C.core n).currentTerm →
      envelope.request = .appendEntries args → C.SpeaksFor envelope.request ∧
      ∀ l T, claims envelope.request = some (l, T) →
        l = n ∧ T = (C.core n).currentTerm ∧ (C.core n).state = .leader := by
    intro args hl hleader hterm hreq
    rw [hreq]
    refine ⟨?_, ?_⟩
    · show (C.core args.leaderId).state = .leader ∧ (C.core args.leaderId).currentTerm = args.term
      rw [hleader, hid]
      exact ⟨hl, hterm.symm⟩
    · intro l T hclaim
      simp only [claims, Option.some.injEq, Prod.mk.injEq] at hclaim
      exact ⟨by rw [← hclaim.1, hleader, hid], by rw [← hclaim.2, hterm], hl⟩
  rcases hor with ⟨command, i, ht, hreq⟩ | ⟨ht, hreq⟩ | ⟨hl, hreq⟩ | ⟨hl, hreq⟩
  · exact happend _ (h.submitted n hn command i ht) rfl rfl hreq
  · rw [hreq]
    have hcand := h.electing n hn ht
    refine ⟨?_, fun l T hclaim => by simp [claims] at hclaim⟩
    show (C.core (C.core n).id).state = .candidate ∧
      (C.core (C.core n).id).currentTerm = (C.core n).currentTerm ∧
      (C.core (C.core n).id).votedFor = some (C.core n).id
    rw [hid]
    exact ⟨hcand.1, rfl, hcand.2⟩
  · simp only [RaftCore.heartbeatRequest] at hreq
    split at hreq
    · split at hreq
      · rw [Option.some.injEq] at hreq
        rw [← hreq]
        refine ⟨?_, ?_⟩
        · show (C.core (C.core n).id).state = .leader ∧
            (C.core (C.core n).id).currentTerm = (C.core n).currentTerm
          rw [hid]
          exact ⟨hl, rfl⟩
        · intro l T hclaim
          simp only [claims, Option.some.injEq, Prod.mk.injEq] at hclaim
          exact ⟨hclaim.1.symm.trans hid, hclaim.2.symm, hl⟩
      · simp at hreq
    · exact happend _ hl rfl rfl (Option.some.inj hreq).symm
  · exact happend _ hl rfl rfl hreq

/-- An acquisition of the event loop keeps nodes in role. -/
theorem InRole.perform (h : InRole ts C) {n : ℕ} {action : LocalAction}
    (hs : C.step (.local n action) = some C') :
    InRole (ts ++ [⟨C, .local n action, C'⟩]) C' := by
  obtain ⟨hn, -, e, ha, rfl⟩ := step_local hs
  have hserver : ∀ m, m = n ∧ (C.perform n e).servers m = e.server ∨
      m ≠ n ∧ (C.perform n e).servers m = C.servers m := by
    intro m
    rcases eq_or_ne m n with rfl | hm
    · exact Or.inl ⟨rfl, perform_servers_self C m e⟩
    · exact Or.inr ⟨hm, perform_servers_ne C e hm⟩
  have hid := h.id_eq n hn
  refine ⟨?_, ?_, ?_, ?_, ?_⟩
  · intro m hm
    rcases hserver m with ⟨rfl, heq⟩ | ⟨-, heq⟩ <;> rw [Cluster.core, heq]
    · exact ha.sameNode.1.trans hid
    · exact h.id_eq m hm
  · intro m hm command i ht
    rcases hserver m with ⟨rfl, heq⟩ | ⟨-, heq⟩ <;> rw [Cluster.core, heq] <;> rw [heq] at ht
    · rcases ha.submitted ht with hl | ⟨ht, hcore⟩
      · exact hl
      · rw [hcore]
        exact h.submitted m hm command i ht
    · exact h.submitted m hm command i ht
  · intro m hm ht
    rcases hserver m with ⟨rfl, heq⟩ | ⟨-, heq⟩ <;> rw [Cluster.core, heq] <;> rw [heq] at ht
    · rcases ha.electing ht with ⟨hc, hv⟩ | ⟨ht, hcore⟩
      · exact ⟨hc, hv.trans (congrArg some hid)⟩
      · rw [hcore]
        exact h.electing m hm ht
    · exact h.electing m hm ht
  · intro m hm hl
    rcases hserver m with ⟨rfl, heq⟩ | ⟨-, heq⟩
    · have hl' : e.server.core.state = .leader := by rwa [Cluster.core, heq] at hl
      rcases ha.role (by rw [hl']; simp) with hrole | ⟨hc, -, -⟩ | ⟨hc, -⟩
      · refine Wins.append ?_
        rw [Cluster.core, heq, hrole.2]
        exact h.won m hm (hrole.1.symm.trans hl')
      · exact ⟨_, List.mem_append_right _ (List.mem_singleton_self _), hc, hl, rfl⟩
      · rw [hl'] at hc
        exact absurd hc (by simp)
    · rw [Cluster.core, heq] at hl ⊢
      exact Wins.append (h.won m hm hl)
  · intro env henv l T hclaim
    refine Wins.append ?_
    rcases List.mem_append.1 henv with henv | henv
    · exact h.named env henv l T hclaim
    · obtain ⟨rfl, rfl, hl⟩ := (speaksFor_of_sent h hn ha henv).2 l T hclaim
      exact h.won l hn hl

/-- **One step** keeps nodes in role, and what it sends is in role. -/
theorem InRole.of_step (h : InRole ts C) {action : Action} (hgap : ¬ C.DeposesInGap action)
    (hs : C.step action = some C') : InRole (ts ++ [⟨C, action, C'⟩]) C' ∧
      ∀ envelope ∈ sent ⟨C, action, C'⟩, C.SpeaksFor envelope.request := by
  cases action with
  | deliver envelope =>
      refine ⟨h.deliver hgap hs, ?_⟩
      obtain ⟨-, core, reply, -, rfl⟩ := step_deliver hs
      intro env henv
      simp [sent, Cluster.receive] at henv
  | «local» n action =>
      refine ⟨h.perform hs, ?_⟩
      obtain ⟨hn, -, e, ha, rfl⟩ := step_local hs
      intro env henv
      simp only [sent, Cluster.perform, List.drop_left] at henv
      exact (speaksFor_of_sent h hn ha henv).1

/-- **Requests are built in role**, in every run in which no node is deposed between its two locks:
whatever a transition sends speaks for a role that the sender holds, and whoever is recognised as
the leader of a term has won that term before. -/
theorem run_in_role (hinit : C.Initial) (hr : Run step C ts C')
    (hgap : ∀ t ∈ ts, ¬ t.source.DeposesInGap t.action) :
    (∀ t ∈ ts, ∀ envelope ∈ sent t, t.source.SpeaksFor envelope.request) ∧
      ∀ us t vs, ts = us ++ t :: vs → ∀ envelope args, t.action = .deliver envelope →
        envelope.request = .appendEntries args →
        (t.source.core envelope.target).currentTerm ≤ args.term →
        ∃ u ∈ us, Wins u args.leaderId args.term := by
  have hsent : ∀ {us : List (Transition (Cluster σ μ) Action)} {D : Cluster σ μ},
      Run step C us D → (∀ t ∈ us, ¬ t.source.DeposesInGap t.action) → InRole us D ∧
        ∀ t ∈ us, ∀ envelope ∈ sent t, t.source.SpeaksFor envelope.request := by
    intro us D hr hgap
    refine hr.history (P := fun t => ¬ t.source.DeposesInGap t.action) (J := fun us D => InRole us D ∧
      ∀ t ∈ us, ∀ envelope ∈ sent t, t.source.SpeaksFor envelope.request) ?_
      ⟨hinit.inRole, by simp⟩ hgap
    rintro us D action D' ⟨hrole, hsent⟩ hs hno
    obtain ⟨hrole', hsent'⟩ := hrole.of_step hno hs
    refine ⟨hrole', fun t ht => ?_⟩
    rcases List.mem_append.1 ht with ht | ht
    · exact hsent t ht
    · obtain rfl := List.mem_singleton.1 ht
      exact hsent'
  refine ⟨(hsent hr hgap).2, ?_⟩
  rintro us t vs rfl envelope args haction hreq -
  obtain ⟨hpre, hs, -⟩ := hr.cut
  rw [haction] at hs
  refine (hsent hpre fun u hu => hgap u (List.mem_append_left _ hu)).1.named envelope
    (step_deliver hs).1 _ _ ?_
  rw [hreq]
  rfl

/-- The first election of three nodes: node 1 asks node 2 for its vote and gets it; the round of
requests after the election is dropped. -/
def electFirst : List Cue :=
  [.local 1 .startElection, .local 1 .requestVotes, .deliver 0, .answer 0,
    .local 1 .sendHeartbeat, .local 1 .drop]

/-- Node 1 has appended a command when node 2 stands for the next term, and then replicates it to
node 3. -/
def deposeFirst : List Cue :=
  [.local 1 (.submit "SET x 1"), .local 2 .startElection, .local 2 .requestVotes, .deliver 4,
    .local 1 .replicate, .deliver 7]

/-- Three nodes. -/
def threeNodes : Cluster StorageContents Recorder := booted [1, 2, 3] .empty .new 0

theorem threeNodes_initial : threeNodes.Initial :=
  booted_initial (by decide) 0 rfl rfl rfl rfl

/-- A leader that replicates a command to node 2 is in role. -/
theorem run_in_role_three : ∃ (ts : List _) (C : Cluster StorageContents Recorder),
    Run step threeNodes ts C ∧ C.requests.length = 6 ∧
      ∀ t ∈ ts, ∀ envelope ∈ sent t, t.source.SpeaksFor envelope.request := by
  obtain ⟨ts, C, hr, hgap, hlen⟩ := exists_run_of_play step choose threeNodes
    (electFirst ++ [.local 1 (.submit "SET x 1"), .local 1 .replicate, .deliver 4])
    (P := fun ts C => (∀ t ∈ ts, ¬ t.source.DeposesInGap t.action) ∧ C.requests.length = 6)
    (by decide)
  exact ⟨ts, C, hr, hlen, (run_in_role threeNodes_initial hr hgap).1⟩

/-- **A deposed leader speaks for the next term**: the capture of `replicate_to_peers` reads the
term that node 1 has got from the vote request in between, and node 3 takes it for the leader of
that term. -/
theorem sent_out_of_role : ∃ (ts : List _) (C : Cluster StorageContents Recorder),
    threeNodes.Initial ∧ Run step threeNodes ts C ∧
      (∃ t ∈ ts, ∃ envelope ∈ sent t, ¬ t.source.SpeaksFor envelope.request) ∧
      (∀ t ∈ ts, ¬ Wins t 1 2) ∧
      (C.core 3).currentLeader = some 1 ∧ (C.core 3).currentTerm = 2 := by
  obtain ⟨ts, C, hr, hP⟩ := exists_run_of_play step choose threeNodes (electFirst ++ deposeFirst)
    (P := fun ts C =>
      (∃ t ∈ ts, ∃ envelope ∈ sent t, ¬ t.source.SpeaksFor envelope.request) ∧
      (∀ t ∈ ts, ¬ Wins t 1 2) ∧
      (C.core 3).currentLeader = some 1 ∧ (C.core 3).currentTerm = 2) (by decide)
  exact ⟨ts, C, threeNodes_initial, hr, hP⟩

end Cluster

end RaftVibe
