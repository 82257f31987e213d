/-
**Reads are fresh, also after crashes.**

A read that begins at some moment returns no less than what any node had committed by then, whether
or not a client was told of it.  A commit index comes from a leader, who announced it in his requests
and in his snapshots, so every commit index of the cluster is one that a leader knew as long as he
led.  A leader who crashes forgets his commit index, but he does not lead in his term any more.  From
there the argument is that of the read index: a majority confirms the reader, so nobody of a later
term had committed anything when the read began.

Main definitions:

* `RaftVibe.Led` — an index is committed, and its leader knows as long as he leads;
* `RaftVibe.Sourced` — every commit index, and every announced one, is such an index;
* `RaftVibe.Fresh` — what is known of the reads that begin after a moment.

Main results:

* `RaftVibe.Sourced.advance` — **one step**, with or without a crash, keeps the commit indices sourced;
* `RaftVibe.Fresh.stepOrRestart` — and keeps what is known of the reads;
* `RaftVibe.Cluster.run_read_fresh` — **a read returns no less than what was committed anywhere when
  it began**.
-/

import RaftVibe.StateReplication

set_option relaxedAutoImplicit false
set_option autoImplicit false

namespace RaftVibe

open ReplicatedLog Runs

variable {σ μ : Type} [Storage σ] {S : Setting} {A A' : State ℕ LogEntry}
  {C C' : Cluster σ μ} {n : ℕ} {m₀ : μ}

/-! ### What a step does -/

/-- What any step does, with or without a crash: who leads a term that was won before has led it
before the step, and has not lost any of its commit index. -/
structure Advance (S : Setting) (n : ℕ) (C C' : Cluster σ μ) (A A' : State ℕ LogEntry) : Prop where
  frame : Frame n A A'
  leads : ∀ l ∈ S.nodes, (C'.core l).state = .leader →
    A.leader (C'.core l).currentTerm = some l →
    (C.core l).SameRole (C'.core l) ∧ (C.core l).commitIndex ≤ (C'.core l).commitIndex

section Steps

variable [Snapshotable μ]

/-- Whoever leads after a step a term that was won before, has led it before the step. -/
theorem Sim.leads_of_step (h : Sim S C A) {action : Action} (hs : C.step action = some C') {l : ℕ}
    (hmem : l ∈ S.nodes) (hl : (C'.core l).state = .leader)
    (hlead : A.leader (C'.core l).currentTerm = some l) : (C.core l).SameRole (C'.core l) := by
  have hne : (C'.core l).state ≠ .follower := by rw [hl]; simp
  cases action with
  | deliver envelope =>
      obtain ⟨-, core, reply, hrec, rfl⟩ := Cluster.step_deliver hs
      by_cases hlt : l = envelope.target
      · subst hlt
        have hself : (C.receive envelope core reply).core envelope.target = core := by
          rw [Cluster.core, C.receive_servers_self]
        rw [hself] at hne ⊢
        exact Server.receive_role hrec hne
      · rw [Cluster.core, Cluster.core, C.receive_servers_ne core reply hlt]
        exact ⟨rfl, rfl⟩
  | «local» n action =>
      obtain ⟨-, -, e, ha, rfl⟩ := Cluster.step_local hs
      by_cases hln : l = n
      · subst hln
        have hself : (C.perform l e).core l = e.server.core := by
          rw [Cluster.core, C.perform_servers_self]
        rw [hself] at hne hl hlead ⊢
        rcases ha.role hne with hsame | ⟨hcand, -, hterm⟩ | ⟨hcand, -⟩
        · exact hsame
        · -- a candidate has not won its term, and nobody else has
          have hnode := h.node l hmem
          have hterm : e.server.core.currentTerm = A.term l := hterm.trans hnode.term_eq
          rw [hterm] at hlead
          rcases (hnode.stands hcand).running with hrun | ⟨d, hd, hlead'⟩
          · exact absurd hlead ((Setting.inv h.reachable).running_leader hrun)
          · exact absurd (Option.some.inj (hlead'.symm.trans hlead)) hd
        · rw [hl] at hcand
          cases hcand
      · rw [Cluster.core, Cluster.core, C.perform_servers_ne e hln]
        exact ⟨rfl, rfl⟩

omit [Storage σ] in
/-- A restart changes one server. -/
theorem Cluster.restart_servers_ne [Storage σ] {k l : ℕ} (hs : C.restart m₀ k = some C')
    (hl : l ≠ k) : C'.servers l = C.servers l := by
  obtain ⟨-, core, -, rfl⟩ := Cluster.restart_eq_some hs
  exact Function.update_of_ne hl _ _

/-- The node that comes back is an idle follower, and has committed what its snapshot covers. -/
theorem Endures.restart_self (h : Endures S C A) {k : ℕ} (hs : C.restart m₀ k = some C') :
    (C'.servers k).task = .idle ∧ (C'.core k).state = .follower ∧
      (C'.core k).commitIndex = (C.core k).snapshotLastIndex := by
  obtain ⟨hk, core, hnew, rfl⟩ := Cluster.restart_eq_some hs
  rw [h.follows.sim.nodes] at hk
  obtain ⟨m, rfl⟩ := (h.recoverable k hk).new_eq hnew
  refine ⟨?_, ?_, ?_⟩ <;> simp only [Cluster.core, Function.update_self] <;> rfl

/-- **One step**, with or without a crash. -/
theorem Endures.advance_of_frame [LawfulStorage σ] [DurableSnapshots σ] {nodes : List ℕ}
    {hnodup : nodes.Nodup} (h : Endures (.full nodes hnodup) C A) {action : RestartAction}
    (hok : ¬ C.Strays action) (hs : C.stepOrRestart m₀ action = some C')
    (hf : Frame action.node A A') : Advance (.full nodes hnodup) action.node C C' A A' := by
  refine ⟨hf, fun l hmem hl hlead => ?_⟩
  have hsim := h.follows.sim
  cases action with
  | act action =>
      obtain ⟨hdiv, -⟩ := not_or.1 hok
      obtain ⟨_, -, -, hp⟩ := hsim.progress (fun _ => ⟨inferInstance, inferInstance⟩) trivial
        (Cluster.allows_full hdiv) hs
      exact ⟨hsim.leads_of_step hs hmem hl hlead, hp.commit_le l hmem⟩
  | restart k =>
      by_cases hlk : l = k
      · subst hlk
        rw [(h.restart_self hs).2.1] at hl
        cases hl
      · rw [Cluster.core, Cluster.core, Cluster.restart_servers_ne hs hlk]
        exact ⟨⟨rfl, rfl⟩, le_rfl⟩

theorem Endures.advance [LawfulStorage σ] [DurableSnapshots σ] {nodes : List ℕ}
    {hnodup : nodes.Nodup} (h : Endures (.full nodes hnodup) C A) {action : RestartAction}
    (hok : ¬ C.Strays action) (hs : C.stepOrRestart m₀ action = some C') :
    ∃ A', Endures (.full nodes hnodup) C' A' ∧
      Advance (.full nodes hnodup) action.node C C' A A' := by
  obtain ⟨A', hm, h'⟩ := h.stepOrRestart hok hs
  exact ⟨A', h', h.advance_of_frame hok hs hm.frame⟩

end Steps

/-! ### Where commit indices come from -/

/-- The index `i` is committed in the term `T`, and the leader of that term knows as long as he leads
it. -/
def Led (S : Setting) (C : Cluster σ μ) (A : State ℕ LogEntry) (T i : ℕ) : Prop :=
  ∃ l ∈ S.nodes, ∃ k, A.leader T = some l ∧ Committed S.quorums A T k ∧ i ≤ k ∧
    ((C.core l).state = .leader → (C.core l).currentTerm = T → k ≤ (C.core l).commitIndex)

/-- Either nothing is committed at `i`, or a leader knows. -/
def Known (S : Setting) (C : Cluster σ μ) (A : State ℕ LogEntry) (i : ℕ) : Prop :=
  i = 0 ∨ ∃ T, Led S C A T i

/-- The index up to which a request tells that the log is committed. -/
def Request.announced : Request → ℕ
  | requestVote _ => 0
  | appendEntries args => args.leaderCommit
  | installSnapshot args => args.lastIncludedIndex

/-- **Every commit index comes from a leader**: those of the nodes, and those on their way. -/
structure Sourced (S : Setting) (C : Cluster σ μ) (A : State ℕ LogEntry) : Prop where
  node : ∀ n ∈ S.nodes, Known S C A (C.core n).commitIndex
  carried : ∀ envelope ∈ C.requests, Known S C A envelope.request.announced

omit [Storage σ] in
theorem Led.mono {T i j : ℕ} (h : Led S C A T j) (hij : i ≤ j) : Led S C A T i := by
  obtain ⟨l, hl, k, hlead, hcom, hjk, hk⟩ := h
  exact ⟨l, hl, k, hlead, hcom, hij.trans hjk, hk⟩

omit [Storage σ] in
theorem Known.mono {i j : ℕ} (h : Known S C A j) (hij : i ≤ j) : Known S C A i := by
  rcases h with rfl | ⟨T, hT⟩
  · exact Or.inl (Nat.le_zero.1 hij)
  · exact Or.inr ⟨T, hT.mono hij⟩

omit [Storage σ] in
theorem Led.advance (ha : Advance S n C C' A A') {T i : ℕ} (h : Led S C A T i) :
    Led S C' A' T i := by
  obtain ⟨l, hl, k, hlead, hcom, hik, hk⟩ := h
  refine ⟨l, hl, k, ha.frame.leader_some hlead, hcom.frame ha.frame, hik, fun hs ht => ?_⟩
  obtain ⟨hsame, hle⟩ := ha.leads l hl hs (ht ▸ hlead)
  exact (hk (hsame.1.symm.trans hs) (hsame.2.symm.trans ht)).trans hle

omit [Storage σ] in
theorem Known.advance (ha : Advance S n C C' A A') {i : ℕ} (h : Known S C A i) :
    Known S C' A' i :=
  h.imp id fun ⟨T, hT⟩ => ⟨T, hT.advance ha⟩

section Sources

variable [Snapshotable μ]

/-- A request raises the commit index of its target no further than it announces. -/
theorem Server.receive_commit_le {core core' : RaftCore σ μ} {request : Request} {reply : Reply}
    (h : Server.receive core request = .ok (core', reply)) :
    core'.commitIndex ≤ max core.commitIndex request.announced := by
  rcases Server.receive_ok h with ⟨args, _, rfl, -, h⟩ | ⟨args, _, rfl, -, h⟩ | ⟨args, _, rfl, -, h⟩
  · rw [RaftCore.handleRequestVote_commitIndex h]
    exact le_max_left _ _
  · obtain ⟨core₁, h₁, hor⟩ := RaftCore.handleAppendEntries_ok h
    obtain ⟨-, -, -, hci⟩ := RaftCore.observeTerm_log h₁
    rcases hor with ⟨-, rfl, -, -⟩ | ⟨-, core₂, rfl, ⟨rfl, -, -⟩ | ⟨-, hacc, -, -⟩⟩
    · exact hci.le.trans (le_max_left _ _)
    · exact hci.le.trans (le_max_left _ _)
    · obtain ⟨_, core₃, -, rfl, ⟨-, rfl⟩ | ⟨-, results, happly⟩⟩ := RaftCore.acceptEntries_ok hacc
      · exact hci.le.trans (le_max_left _ _)
      · obtain ⟨_, _, _, _, _, _, rfl⟩ := RaftCore.applyCommittedEntries_eq happly
        exact (min_le_left _ _).trans (le_max_right _ _)
  · rcases RaftCore.handleInstallSnapshot_ok h with ⟨-, rfl, -⟩ | ⟨core₁, core₂, h₁, -, rfl, hor⟩
    · exact le_max_left _ _
    · obtain ⟨-, -, -, hci⟩ := RaftCore.observeTerm_log h₁
      rcases hor with ⟨s, reason, rfl, -⟩ | ⟨-, s, m, -, -, rfl, -⟩
      · exact hci.le.trans (le_max_left _ _)
      · exact (max_le_max hci.le le_rfl)

/-- A request announces no more than its sender has committed. -/
theorem NodeRel.announced_le {s : Server σ μ} (h : NodeRel S A n s.core) (hstrict : S.strict)
    (hcomp : S.compacting) {now : ℕ} {action : LocalAction} {e : Effect σ μ}
    (ha : Acts s now action e) {envelope : Envelope} (he : envelope ∈ e.sent) :
    envelope.request.announced ≤ s.core.commitIndex := by
  cases hreq : envelope.request with
  | requestVote args => exact Nat.zero_le _
  | appendEntries args => exact (Cluster.appendEntries_of_sent ha he hreq).2.2.le
  | installSnapshot args =>
      obtain ⟨snapshot, hload, hidx, -⟩ := ha.sent_snapshot he hreq
      have hmeta := h.stored hcomp snapshot hload
      rw [Request.announced, hidx, hmeta]
      exact (h.commits hstrict).snapshot_le

/-- A commit index that has risen on an answer is one that a leader knows. -/
theorem Sim.led_of_answer (h : Sim S C A) (hst : S.Stores σ) (hh : S.honest)
    {action : LocalAction} (hs : C.step (.local n action) = some C')
    (hlt : (C.core n).commitIndex < (C'.core n).commitIndex) (hn : n ∈ S.nodes)
    (hsim' : Sim S C' A') (hf : Frame n A A') :
    Led S C' A' (A.term n) (C'.core n).commitIndex := by
  obtain ⟨hl, hterm, hcom⟩ := h.commits_of_answer hst hh hs hlt
  have hnode := hsim'.node n hn
  have hlead := (hnode.leads hl).leader
  rw [← hnode.term_eq, hterm] at hlead
  exact ⟨n, hn, _, hlead, hcom.frame hf, le_rfl, fun _ _ => le_rfl⟩

variable [LawfulStorage σ] [DurableSnapshots σ] {nodes : List ℕ} {hnodup : nodes.Nodup}

/-- **One step** keeps the commit indices sourced. -/
theorem Sourced.step (h : Sourced (.full nodes hnodup) C A) (hsim : Sim (.full nodes hnodup) C A)
    {action : Action} (hs : C.step action = some C') (hsim' : Sim (.full nodes hnodup) C' A')
    (ha : Advance (.full nodes hnodup) action.node C C' A A') :
    Sourced (.full nodes hnodup) C' A' := by
  cases action with
  | deliver envelope =>
      obtain ⟨hmem, core, reply, hrec, rfl⟩ := Cluster.step_deliver hs
      refine ⟨fun m hm => ?_, fun e he => (h.carried e he).advance ha⟩
      by_cases hmt : m = envelope.target
      · subst hmt
        have hle := Server.receive_commit_le hrec
        have hnode := (h.node _ hm).advance ha
        have hcarried := (h.carried envelope hmem).advance ha
        rw [Cluster.core, C.receive_servers_self]
        rcases le_max_iff.1 hle with hle | hle
        · exact hnode.mono hle
        · exact hcarried.mono hle
      · rw [Cluster.core, C.receive_servers_ne core reply hmt]
        exact (h.node m hm).advance ha
  | «local» k action =>
      obtain ⟨hk, -, e, hacts, hC'⟩ := Cluster.step_local hs
      rw [hsim.nodes] at hk
      refine ⟨fun m hm => ?_, fun envelope he => ?_⟩
      · by_cases hmk : m = k
        · subst hmk
          rcases Nat.lt_or_ge (C.core m).commitIndex (C'.core m).commitIndex with hlt | hge
          · exact Or.inr ⟨_, hsim.led_of_answer (fun _ => ⟨inferInstance, inferInstance⟩) trivial hs
              hlt hm hsim' ha.frame⟩
          · exact ((h.node m hm).advance ha).mono hge
        · have hsame : C'.core m = C.core m := by
            rw [hC', Cluster.core, C.perform_servers_ne e hmk, Cluster.core]
          rw [hsame]
          exact (h.node m hm).advance ha
      · rw [hC'] at he
        rcases List.mem_append.1 he with he | he
        · exact (h.carried envelope he).advance ha
        · exact ((h.node k hk).advance ha).mono
            ((hsim.node k hk).announced_le trivial trivial hacts he)

omit [LawfulStorage σ] [DurableSnapshots σ] in
/-- **A restart** keeps them sourced: the node that comes back takes its snapshot for committed, and no
more. -/
theorem Sourced.restart (h : Sourced S C A) (he : Endures S C A) (hstrict : S.strict) {k : ℕ}
    (hs : C.restart m₀ k = some C') (ha : Advance S k C C' A A') : Sourced S C' A' := by
  refine ⟨fun m hm => ?_, fun e hmem => ?_⟩
  · have hold := (h.node m hm).advance ha
    by_cases hmk : m = k
    · subst hmk
      rw [(he.restart_self hs).2.2]
      exact hold.mono ((he.follows.sim.node _ hm).commits hstrict).snapshot_le
    · rw [Cluster.core, Cluster.restart_servers_ne hs hmk]
      exact hold
  · obtain ⟨-, core, -, rfl⟩ := Cluster.restart_eq_some hs
    exact (h.carried e hmem).advance ha

/-- **One step**, with or without a crash, keeps the commit indices sourced. -/
theorem Sourced.advance (h : Sourced (.full nodes hnodup) C A)
    (he : Endures (.full nodes hnodup) C A) {action : RestartAction}
    (hs : C.stepOrRestart m₀ action = some C') (he' : Endures (.full nodes hnodup) C' A')
    (ha : Advance (.full nodes hnodup) action.node C C' A A') :
    Sourced (.full nodes hnodup) C' A' := by
  cases action with
  | act action => exact h.step he.follows.sim hs he'.follows.sim ha
  | restart k => exact h.restart he trivial hs ha

end Sources

/-! ### Numbers -/

/-- The moment at which a read began that has not returned yet. -/
def Task.since? : Task → Option ℕ
  | readInvoked since => some since
  | reading since _ _ => some since
  | confirming since _ _ _ _ _ => some since
  | awaiting since _ => some since
  | _ => none

theorem Task.since?_forget (task : Task) (envelope : Envelope) :
    (task.forget envelope).since? = task.since? := by
  cases task <;> rfl

/-- **What bears a number is not newer than the cluster**: no request is of a later round of its
sender, and no read began after all that clients have seen. -/
structure Dated (C : Cluster σ μ) : Prop where
  rounds : ∀ envelope ∈ C.requests, envelope.round ≤ (C.servers envelope.source).rounds
  replied : ∀ r ∈ C.replies, r.1 ∈ C.requests
  begun : ∀ n ∈ C.nodes, ∀ since, (C.servers n).task.since? = some since → since < C.history.length
  returned : ∀ m since r, Event.readReturned m since (.ok r) ∈ C.history →
    since < C.history.length

section Dates

variable [Snapshotable μ]

omit [Snapshotable μ] in
theorem Cluster.Initial.dated [Snapshotable μ] (h : C.Initial) : Dated C where
  rounds := by simp [h.requests]
  replied := by simp [h.replies]
  begun n hn since hs := by
    rw [h.idle n hn] at hs
    cases hs
  returned := by simp [h.history]

/-- A read of the event loop began now or before. -/
theorem Acts.since_lt {s : Server σ μ} {now : ℕ} {action : LocalAction} {e : Effect σ μ}
    (ha : Acts s now action e) (hold : ∀ since, s.task.since? = some since → since < now) {since : ℕ}
    (hs : e.server.task.since? = some since) : since < now + e.events.length := by
  have before {task : Task} {events : List Event} (ht : s.task.since? = task.since?)
      (hs : task.since? = some since) : since < now + events.length :=
    (hold since (ht.trans hs)).trans_le (Nat.le_add_right _ _)
  cases ha with
  | settle hset =>
      cases hset with
      | stop | refuse | finishRead => cases hs
      | invoke =>
          obtain rfl := Option.some.inj hs
          exact Nat.lt_succ_self _
      | beginRead ht | confirm ht | wait ht => exact before (by rw [ht]; rfl) hs
  | confirmLeadership ht => exact before (by rw [ht]; rfl) hs
  | confirmCounted ht => exact before (by rw [ht]; rfl) hs
  | fail => exact before (Task.since?_forget _ _).symm hs
  | submitPending | votePending | heartbeatAppended | heartbeatInstalled =>
      exact before (Task.since?_forget _ _).symm hs
  | _ => cases hs

/-- **One step** of the cluster. -/
theorem Dated.step (h : Dated C) (hsim : Sim S C A) {action : Action}
    (hs : C.step action = some C') : Dated C' := by
  cases action with
  | deliver envelope =>
      obtain ⟨hmem, core, reply, -, rfl⟩ := Cluster.step_deliver hs
      have hserver : ∀ m, ((C.receive envelope core reply).servers m).task = (C.servers m).task ∧
          ((C.receive envelope core reply).servers m).rounds = (C.servers m).rounds := by
        intro m
        by_cases hm : m = envelope.target
        · rw [hm, C.receive_servers_self]
          exact ⟨rfl, rfl⟩
        · rw [C.receive_servers_ne core reply hm]
          exact ⟨rfl, rfl⟩
      refine ⟨fun e he => ?_, fun r hr => ?_, fun n hn since hsince => ?_, h.returned⟩
      · rw [(hserver _).2]
        exact h.rounds e he
      · rcases List.mem_append.1 hr with hr | hr
        · exact h.replied r hr
        · obtain rfl := List.mem_singleton.1 hr
          exact hmem
      · rw [(hserver n).1] at hsince
        exact h.begun n hn since hsince
  | «local» n action =>
      obtain ⟨hn, -, e, ha, rfl⟩ := Cluster.step_local hs
      have hself := C.perform_servers_self n e
      have hlen : (C.perform n e).history.length = C.history.length + e.events.length :=
        List.length_append
      refine ⟨fun env he => ?_, fun r hr => List.mem_append_left _ (h.replied r hr),
        fun m hm since hsince => ?_, fun m since r he => ?_⟩
      · rcases List.mem_append.1 he with he | hsent
        · refine (h.rounds env he).trans ?_
          by_cases hm : env.source = n
          · rw [hm, hself]
            exact ha.rounds_le
          · rw [C.perform_servers_ne e hm]
        · obtain ⟨hsource, hround⟩ := ha.sent_round hsent
          have hid : (C.servers n).core.id = n := (hsim.node n (hsim.nodes ▸ hn)).id_eq
          rw [hsource, hid, hself, hround]
      · rw [hlen]
        by_cases hmn : m = n
        · subst hmn
          rw [hself] at hsince
          exact ha.since_lt (h.begun m hm) hsince
        · rw [C.perform_servers_ne e hmn] at hsince
          exact (h.begun m hm since hsince).trans_le (Nat.le_add_right _ _)
      · rw [hlen]
        rcases List.mem_append.1 he with he | he
        · exact (h.returned m since r he).trans_le (Nat.le_add_right _ _)
        · obtain ⟨readIndex, ht, -⟩ := ha.read_returned he
          exact (h.begun n hn since (by rw [ht]; rfl)).trans_le (Nat.le_add_right _ _)

/-- **A restart.** -/
theorem Dated.restart (h : Dated C) {k : ℕ} (hs : C.restart m₀ k = some C') : Dated C' := by
  obtain ⟨-, core, -, rfl⟩ := Cluster.restart_eq_some hs
  refine ⟨fun e he => (h.rounds e he).trans ?_, h.replied, fun n hn since hsince => ?_, h.returned⟩
  · by_cases hm : e.source = k
    · rw [hm]
      simp only [Function.update_self, le_refl]
    · simp only [Function.update_of_ne hm, le_refl]
  · by_cases hnk : n = k
    · subst hnk
      simp only [Function.update_self] at hsince
      cases hsince
    · simp only [Function.update_of_ne hnk] at hsince
      exact h.begun n hn since hsince

end Dates

/-! ### What is known of the reads that begin after a moment -/

/-- As long as `n` leads, the read index covers `i` — unless a later leader had committed it. -/
def Spans (S : Setting) (C : Cluster σ μ) (n : ℕ) (β : ℕ → ℕ) (i readIndex : ℕ) : Prop :=
  (C.core n).state = .leader → i ≤ readIndex ∨ Overtaken S β (C.core n).currentTerm

/-- A read that began when the history had the length `L` or more, at each of its stages. -/
def Stage (S : Setting) (C : Cluster σ μ) (n : ℕ) (β : ℕ → ℕ) (L i : ℕ) : Task → Prop
  | .reading since readIndex numPeers => L ≤ since →
      numPeers = (C.core n).peers.length ∧ Spans S C n β i readIndex
  | .confirming since readIndex numPeers _ successCount waiting => L ≤ since →
      numPeers = (C.core n).peers.length ∧ Spans S C n β i readIndex ∧
        Confirms C n β successCount waiting
  | .awaiting since readIndex => L ≤ since → i ≤ readIndex
  | _ => True

/-- **What is known of the reads that begin when the history has the length `L` or more**: the terms
were `β` by then, and `i` was committed in a term `T` that a quorum had reached. -/
structure Fresh (S : Setting) (C : Cluster σ μ) (A : State ℕ LogEntry) (β : ℕ → ℕ) (L T i : ℕ) :
    Prop where
  terms : ∀ v, β v ≤ A.term v
  led : Led S C A T i
  reached : ∃ Q, S.quorums.IsQuorum Q ∧ ∀ v ∈ Q, T ≤ β v
  read : ∀ n ∈ S.nodes, Stage S C n β L i (C.servers n).task
  returned : ∀ m since r, Event.readReturned m since (.ok r) ∈ C.history → L ≤ since → i ≤ r

section Reading

variable {β : ℕ → ℕ} {L T i : ℕ}

omit [Storage σ] in
theorem Spans.congr {m readIndex : ℕ} (h : Spans S C m β i readIndex)
    (hrole : (C'.core m).state ≠ .follower → (C.core m).SameRole (C'.core m)) :
    Spans S C' m β i readIndex := by
  intro hl
  have hsame := hrole (by simp [hl])
  rw [hsame.2]
  exact h (hsame.1.symm.trans hl)

omit [Storage σ] in
theorem Confirms.congr {m successCount : ℕ} {waiting : List Envelope}
    (h : Confirms C m β successCount waiting) (hserver : C'.servers m = C.servers m)
    (hreplies : C'.replies = C.replies) : Confirms C' m β successCount waiting where
  round envelope he := by
    rw [hserver]
    exact h.round envelope he
  nodup := h.nodup
  answered r hr := by
    rw [hreplies] at hr
    rw [hserver]
    exact h.answered r hr
  counted := by
    rw [Cluster.core, hserver]
    exact h.counted

omit [Storage σ] in
/-- **A read stays where it is** while others move, and while its node handles requests. -/
theorem Stage.progress (hp : Progress S n C C' A A') {m : ℕ} {task : Task}
    (h : Stage S C m β L i task) (hβ : ∀ v, β v ≤ A.term v)
    (hrounds : (C'.servers m).rounds = (C.servers m).rounds)
    (hpeers : (C'.core m).peers = (C.core m).peers)
    (hrole : (C'.core m).state ≠ .follower → (C.core m).SameRole (C'.core m)) :
    Stage S C' m β L i task := by
  cases task with
  | reading since readIndex numPeers =>
      intro hL
      obtain ⟨hnum, hcov⟩ := h hL
      exact ⟨by rw [hpeers, hnum], hcov.congr hrole⟩
  | confirming since readIndex numPeers majorityNeeded successCount waiting =>
      intro hL
      obtain ⟨hnum, hcov, hconf⟩ := h hL
      exact ⟨by rw [hpeers, hnum], hcov.congr hrole,
        hconf.progress hp hβ hrounds hpeers hrole⟩
  | awaiting since readIndex => exact h
  | _ => trivial

omit [Storage σ] in
/-- A read goes on while nothing else about its node changes. -/
theorem Stage.proceed {task : Task} {events : List Event}
    (hp : Progress S n C (C.perform n ((C.servers n).proceed (C.core n) task events)) A A')
    (h : Stage S C n β L i task) (hβ : ∀ v, β v ≤ A.term v) :
    Stage S (C.perform n ((C.servers n).proceed (C.core n) task events)) n β L i task := by
  have hself := C.perform_servers_self n ((C.servers n).proceed (C.core n) task events)
  refine h.progress hp hβ ?_ ?_ fun _ => ⟨?_, ?_⟩ <;>
    first | rw [hself] | rw [Cluster.core, hself]
  all_goals rfl

/-- What was committed in an earlier term is below the commit index of a leader who has committed in
his own: the entry there is above what he was elected with, and what was committed before is in
that. -/
theorem Sim.committed_le_commitIndex (h : Sim S C A) (hstrict : S.strict) (hn : n ∈ S.nodes)
    (hl : (C.core n).state = .leader)
    (hprev : (C.core n).prevLogTerm (C.core n).commitIndex = (C.core n).currentTerm) {k : ℕ}
    (hcom : Committed S.quorums A T k) (hlt : T < A.term n) : k ≤ (C.core n).commitIndex := by
  have hnode := h.node n hn
  have hleads := hnode.leads hl
  have hinv := Setting.inv h.reachable
  have hc := hnode.commits hstrict
  rw [hnode.log.prevLogTerm hc.snapshot_le hc.commit_le, hnode.term_eq] at hprev
  -- the entry at the commit index
  obtain ⟨p, e, hpe⟩ : ∃ p e, (A.log n).take (C.core n).commitIndex = p ++ [e] := by
    rcases List.eq_nil_or_concat' ((A.log n).take (C.core n).commitIndex) with hnil | hpe
    · have hpos := hinv.leader_pos hleads.leader
      rw [hnil, lastTerm_nil] at hprev
      omega
    · exact hpe
  rw [hpe, lastTerm_append_singleton] at hprev
  have hpre : p ++ [e] <+: A.llog (A.term n) := by
    rw [← hpe, ← hleads.log]
    exact List.take_prefix _ _
  have helog := (hinv.length_elog_lt_iff hleads.leader hpre).2 hprev
  rw [← hpe] at helog
  -- the committed prefix is in the log that the leader was elected with
  have hk := ((Setting.kept h.reachable (S.honest_of_strict hstrict)).leader_completeness hcom
    hleads.leader hlt).length_le
  rw [List.length_take, min_eq_left hcom.2.2.1] at hk
  exact hk.trans (helog.le.trans (List.length_take_le _ _))

/-- **A leader that has committed in its term** takes a read index that covers what was committed. -/
theorem Fresh.spans (h : Fresh S C A β L T i) (hsim : Sim S C A) (hstrict : S.strict)
    (hn : n ∈ S.nodes)
    (hprev : (C.core n).prevLogTerm (C.core n).commitIndex = (C.core n).currentTerm) :
    Spans S C n β i (C.core n).commitIndex := by
  intro hl
  obtain ⟨l, -, k, hlead, hcom, hik, hk⟩ := h.led
  obtain ⟨Q, hQ, hreached⟩ := h.reached
  have hnode := hsim.node n hn
  have hleads := hnode.leads hl
  rcases lt_trichotomy T (A.term n) with hlt | rfl | hgt
  · exact Or.inl (hik.trans (hsim.committed_le_commitIndex hstrict hn hl hprev hcom hlt))
  · obtain rfl : n = l := Option.some.inj (hleads.leader.symm.trans hlead)
    exact Or.inl (hik.trans (hk hl hnode.term_eq))
  · rw [hnode.term_eq]
    exact Or.inr ⟨Q, hQ, fun v hv => hgt.trans_le (hreached v hv)⟩

/-- **The capture of `confirm_leadership`** starts a round that nobody has answered. -/
theorem Dated.confirms (h : Dated C) (hnode : NodeRel S A n (C.core n))
    {task : List Envelope → Task} :
    Confirms (C.perform n ((C.servers n).send
        (fun peer => some (.appendEntries ((C.core n).confirmArgs peer))) task)) n β 0
      ((C.servers n).newRound
        fun peer => some (.appendEntries ((C.core n).confirmArgs peer))) := by
  have hrounds : ((C.perform n ((C.servers n).send (fun peer => some (.appendEntries
      ((C.core n).confirmArgs peer))) task)).servers n).rounds = (C.servers n).rounds + 1 := by
    rw [C.perform_servers_self]
    rfl
  refine ⟨fun envelope hmem => ?_, ?_, fun r hr hsource hround => ?_, ∅, rfl, by simp, by simp⟩
  · rw [hrounds]
    exact (Server.mem_newRound.1 hmem).2.2.1
  · have htargets : ((C.servers n).newRound fun peer =>
        some (.appendEntries ((C.core n).confirmArgs peer))).map Envelope.target =
          (C.core n).peers := by
      simp [Server.newRound, Cluster.core, Function.comp_def]
    rw [htargets]
    exact hnode.peers_nodup
  · have hle := h.rounds r.1 (h.replied r hr)
    rw [hsource] at hle
    rw [hrounds] at hround
    omega

variable [Snapshotable μ]

/-- **The event loop takes a read one stage further.** -/
theorem Fresh.acts (h : Fresh S C A β L T i) (hdated : Dated C) (hsim : Sim S C A)
    (hstrict : S.strict) (hn : n ∈ S.nodes) {action : LocalAction} {e : Effect σ μ}
    (hav : C.Available n action) (hearly : ¬ C.ReadsEarly (.local n action))
    (ha : Acts (C.servers n) C.history.length action e)
    (hp : Progress S n C (C.perform n e) A A') :
    Stage S (C.perform n e) n β L i e.server.task := by
  have hnode := hsim.node n hn
  have hread := h.read n hn
  cases ha with
  | settle hset =>
      refine Stage.proceed hp ?_ h.terms
      cases hset with
      | beginRead ht hl =>
          exact fun _ => ⟨rfl, h.spans hsim hstrict hn (not_not.1 fun hne => hearly ⟨hl, hne⟩)⟩
      | confirm ht hl hm =>
          intro hL
          rw [ht] at hread
          obtain ⟨hnum, hspan, hconf⟩ := hread hL
          rw [hnum] at hm
          exact (hspan hl).resolve_right (hconf.not_overtaken hnode hn hl h.terms hm)
      | wait ht =>
          rw [ht] at hread
          exact hread
      | _ => trivial
  | confirmLeadership ht hl =>
      intro hL
      rw [ht] at hread
      obtain ⟨hnum, hspan⟩ := hread hL
      have hcore : ∀ e : Effect σ μ, (C.perform n e).core n = e.server.core := fun e => by
        rw [Cluster.core, C.perform_servers_self]
      refine ⟨?_, hspan.congr fun _ => ?_, hdated.confirms hnode⟩
      · rw [hcore, hnum]
        rfl
      · rw [hcore]
        exact ⟨rfl, rfl⟩
  | @confirmCounted _ _ _ _ successCount _ waiting _ envelope result ht hle hcount hwait =>
      refine Stage.proceed hp ?_ h.terms
      intro hL
      obtain ⟨hmem, hreply⟩ := hav
      rw [ht] at hread hmem
      obtain ⟨hnum, hspan, hconf⟩ := hread hL
      refine ⟨hnum, hspan, ?_⟩
      have hcounted := hconf.handled hsim hn ht hmem hreply
      rw [hcount]
      rcases hwait with rfl | rfl
      · exact hcounted.sublist (List.nil_sublist _)
      · exact hcounted
  | fail =>
      refine Stage.proceed hp ?_ h.terms
      cases ht : (C.servers n).task with
      | confirming since readIndex numPeers majorityNeeded successCount waiting =>
          intro hL
          rw [ht] at hread
          obtain ⟨hnum, hspan, hconf⟩ := hread hL
          exact ⟨hnum, hspan, hconf.sublist List.erase_sublist⟩
      | _ =>
          rw [ht] at hread
          exact hread
  | submitPending ht | votePending ht | heartbeatAppended ht | heartbeatInstalled ht =>
      show Stage _ _ _ _ _ _ (Task.forget _ _)
      rw [ht]
      trivial
  | _ => trivial

/-- A request arrives: no task changes, and no round. -/
theorem Fresh.deliver (h : Fresh S C A β L T i) {envelope : Envelope} {core : RaftCore σ μ}
    {reply : Reply}
    (hrec : Server.receive (C.core envelope.target) envelope.request = .ok (core, reply))
    (hp : Progress S envelope.target C (C.receive envelope core reply) A A')
    (hled : Led S (C.receive envelope core reply) A' T i) :
    Fresh S (C.receive envelope core reply) A' β L T i := by
  refine ⟨fun v => (h.terms v).trans (hp.frame.term_mono v), hled, h.reached, fun m hm => ?_,
    h.returned⟩
  have hself := C.receive_servers_self envelope core reply
  have hread := h.read m hm
  by_cases hmt : m = envelope.target
  · subst hmt
    rw [hself]
    refine hread.progress hp h.terms ?_ ?_ ?_
    · rw [hself]
    · rw [Cluster.core, Cluster.core, hself]
      exact (Server.receive_sameNode hrec).2.1
    · rw [Cluster.core, Cluster.core, hself]
      exact Server.receive_role hrec
  · have hother := C.receive_servers_ne core reply hmt
    rw [hother]
    refine hread.progress hp h.terms ?_ ?_ ?_
    · rw [hother]
    · rw [Cluster.core, hother, Cluster.core]
    · rw [Cluster.core, hother, Cluster.core]
      exact fun _ => ⟨rfl, rfl⟩

/-- An event loop goes on: the other nodes stay as they are. -/
theorem Fresh.perform (h : Fresh S C A β L T i) (hdated : Dated C) (hsim : Sim S C A)
    (hstrict : S.strict) (hn : n ∈ S.nodes) {action : LocalAction} {e : Effect σ μ}
    (hav : C.Available n action) (hearly : ¬ C.ReadsEarly (.local n action))
    (ha : Acts (C.servers n) C.history.length action e)
    (hp : Progress S n C (C.perform n e) A A') (hled : Led S (C.perform n e) A' T i) :
    Fresh S (C.perform n e) A' β L T i := by
  refine ⟨fun v => (h.terms v).trans (hp.frame.term_mono v), hled, h.reached, fun m hm => ?_,
    fun m since r he hL => ?_⟩
  · by_cases hmn : m = n
    · subst hmn
      rw [C.perform_servers_self]
      exact h.acts hdated hsim hstrict hm hav hearly ha hp
    · have hother := C.perform_servers_ne e hmn
      rw [hother]
      refine (h.read m hm).progress hp h.terms ?_ ?_ ?_
      · rw [hother]
      · rw [Cluster.core, hother, Cluster.core]
      · rw [Cluster.core, hother, Cluster.core]
        exact fun _ => ⟨rfl, rfl⟩
  · rcases List.mem_append.1 he with he | he
    · exact h.returned m since r he hL
    · obtain ⟨readIndex, ht, hle⟩ := ha.read_returned he
      have hread := h.read n hn
      rw [ht] at hread
      exact (hread hL).trans hle

/-- **A node that crashes** drops its read; the others go on. -/
theorem Fresh.restart (h : Fresh S C A β L T i) (he : Endures S C A) {k : ℕ}
    (hs : C.restart m₀ k = some C') (hf : Frame k A A') (hled : Led S C' A' T i) :
    Fresh S C' A' β L T i := by
  refine ⟨fun v => (h.terms v).trans (hf.term_mono v), hled, h.reached, fun m hm => ?_, ?_⟩
  · by_cases hmk : m = k
    · subst hmk
      rw [(he.restart_self hs).1]
      trivial
    · have hother := Cluster.restart_servers_ne hs hmk
      have hreplies : C'.replies = C.replies := by
        obtain ⟨-, core, -, rfl⟩ := Cluster.restart_eq_some hs
        rfl
      have hcore : C'.core m = C.core m := by rw [Cluster.core, hother, Cluster.core]
      have hread := h.read m hm
      rw [hother]
      cases ht : (C.servers m).task with
      | reading since readIndex numPeers =>
          rw [ht] at hread
          intro hL
          rw [hcore]
          exact ⟨(hread hL).1, (hread hL).2.congr fun _ => hcore ▸ ⟨rfl, rfl⟩⟩
      | confirming since readIndex numPeers majorityNeeded successCount waiting =>
          rw [ht] at hread
          intro hL
          obtain ⟨hnum, hspan, hconf⟩ := hread hL
          rw [hcore]
          exact ⟨hnum, hspan.congr fun _ => hcore ▸ ⟨rfl, rfl⟩, hconf.congr hother hreplies⟩
      | awaiting since readIndex =>
          rw [ht] at hread
          exact hread
      | _ => trivial
  · obtain ⟨-, core, -, rfl⟩ := Cluster.restart_eq_some hs
    exact h.returned

/-- **One step**, with or without a crash, of the reads that begin after a moment. -/
theorem Fresh.stepOrRestart [LawfulStorage σ] [DurableSnapshots σ] {nodes : List ℕ}
    {hnodup : nodes.Nodup} (h : Fresh (.full nodes hnodup) C A β L T i) (hdated : Dated C)
    (he : Endures (.full nodes hnodup) C A) {action : RestartAction} (hok : ¬ C.Strays action)
    (hearly : ∀ a, action = .act a → ¬ C.ReadsEarly a)
    (hs : C.stepOrRestart m₀ action = some C') :
    ∃ A', Endures (.full nodes hnodup) C' A' ∧ Dated C' ∧
      Fresh (.full nodes hnodup) C' A' β L T i := by
  obtain ⟨A', he', ha⟩ := he.advance hok hs
  have hled := h.led.advance ha
  have hsim := he.follows.sim
  refine ⟨A', he', ?_⟩
  cases action with
  | act action =>
      obtain ⟨hdiv, -⟩ := not_or.1 hok
      obtain ⟨_, -, -, hp'⟩ := hsim.progress (fun _ => ⟨inferInstance, inferInstance⟩) trivial
        (Cluster.allows_full hdiv) hs
      have hp : Progress (.full nodes hnodup) action.node C C' A A' := { hp' with frame := ha.frame }
      refine ⟨hdated.step hsim hs, ?_⟩
      cases action with
      | deliver envelope =>
          obtain ⟨-, core, reply, hrec, rfl⟩ := Cluster.step_deliver hs
          exact h.deliver hrec hp hled
      | «local» n action =>
          obtain ⟨hn, hav, e, hacts, rfl⟩ := Cluster.step_local hs
          exact h.perform hdated hsim trivial (hsim.nodes ▸ hn) hav (hearly _ rfl) hacts hp hled
  | restart k => exact ⟨hdated.restart hs, h.restart he hs ha.frame hled⟩

end Reading

/-! ### Runs -/

namespace Cluster

/-- What is to be excluded: that a node strays, or that a leader begins a read before it has
committed an entry of its own term. -/
def ReadsWrong [Snapshotable μ] (C : Cluster σ μ) : RestartAction → Prop
  | .act action => C.Strays (.act action) ∨ C.ReadsEarly action
  | .restart _ => False

instance [Snapshotable μ] (C : Cluster σ μ) :
    (action : RestartAction) → Decidable (C.ReadsWrong action)
  | .act action => inferInstanceAs (Decidable (C.Strays (.act action) ∨ C.ReadsEarly action))
  | .restart _ => instDecidableFalse

omit [Storage σ] in
theorem Strays.readsWrong [Snapshotable μ] {action : RestartAction} (h : C.Strays action) :
    C.ReadsWrong action := by
  cases action with
  | act action => exact Or.inl h
  | restart n => exact h

theorem Initial.sourced [Snapshotable μ] (h : C.Initial) (hnodes : C.nodes = S.nodes) :
    Sourced S C (State.init ℕ LogEntry) where
  node n hn := by
    obtain ⟨peers, storage, m, threshold, core, hnew, heq, hterm, hvote, hlog, hsnap, -⟩ :=
      h.boot n (hnodes ▸ hn)
    rw [RaftCore.new_eq_fresh hterm hvote hlog hsnap, Except.ok.injEq] at hnew
    rw [Cluster.core, heq, ← hnew]
    exact Or.inl rfl
  carried := by simp [h.requests]

variable [Snapshotable μ] [LawfulStorage σ] [DurableSnapshots σ] {C₁ : Cluster σ μ}
  {ts us : List (Transition (Cluster σ μ) RestartAction)}

/-- All that the nodes have committed along a run is known to leaders. -/
theorem run_known (hinit : C.Initial) (hr : Run (stepOrRestart m₀) C ts C')
    (hok : ∀ t ∈ ts, ¬ t.source.Strays t.action) :
    ∃ A, Endures (.full _ hinit.nodup) C' A ∧ Dated C' ∧ ∀ t ∈ ts, ∀ m ∈ C.nodes,
      Known (.full _ hinit.nodup) C' A (t.target.core m).commitIndex := by
  let S : Setting := .full _ hinit.nodup
  have hrun : ∃ A, Endures S C' A ∧ Sourced S C' A ∧ Dated C' ∧ ∀ t ∈ ts, ∀ m ∈ C.nodes,
      Known S C' A (t.target.core m).commitIndex := by
    refine hr.history (J := fun ts C' => ∃ A, Endures S C' A ∧ Sourced S C' A ∧ Dated C' ∧
      ∀ t ∈ ts, ∀ m ∈ C.nodes, Known S C' A (t.target.core m).commitIndex)
      (P := fun t => ¬ t.source.Strays t.action) ?_
      ⟨_, hinit.endures rfl fun hc => absurd trivial hc, hinit.sourced rfl, hinit.dated, by simp⟩ hok
    rintro ts C₁ action C₂ ⟨A₁, he, hsourced, hdated, hknown⟩ hs hno
    obtain ⟨A₂, he', ha⟩ := he.advance hno hs
    have hsourced' := hsourced.advance he hs he' ha
    have hdated' : Dated C₂ := by
      cases action with
      | act action => exact hdated.step he.follows.sim hs
      | restart k => exact hdated.restart hs
    refine ⟨A₂, he', hsourced', hdated', fun t ht m hm => ?_⟩
    rcases List.mem_append.1 ht with ht | ht
    · exact (hknown t ht m hm).advance ha
    · obtain rfl := List.mem_singleton.1 ht
      exact hsourced'.node m hm
  obtain ⟨A, he, -, hdated, hknown⟩ := hrun
  exact ⟨A, he, hdated, hknown⟩

/-- **A read that begins after the moment `C₁` covers what leaders knew then.** -/
theorem read_covers {nodes : List ℕ} {hnodup : nodes.Nodup}
    (he : Endures (.full nodes hnodup) C₁ A) (hdated : Dated C₁)
    (hr : Run (stepOrRestart m₀) C₁ us C') (hok : ∀ t ∈ us, ¬ t.source.ReadsWrong t.action) {i : ℕ}
    (hknown : Known (.full nodes hnodup) C₁ A i) {since r : ℕ} (hsince : C₁.history.length ≤ since)
    (hread : Event.readReturned n since (.ok r) ∈ C'.history) : i ≤ r := by
  rcases hknown with rfl | ⟨T, hled⟩
  · exact Nat.zero_le r
  -- the terms at the moment `C₁` are those that the reads are compared with
  have hreached : ∃ Q, (Setting.full nodes hnodup).quorums.IsQuorum Q ∧ ∀ v ∈ Q, T ≤ A.term v := by
    obtain ⟨l, -, k, -, ⟨-, hpos, -, Q, hQ, hack⟩, -⟩ := hled
    refine ⟨Q, hQ, fun v hv => ?_⟩
    exact ((Setting.inv he.follows.sim.reachable).acked_leader
      ((Nat.zero_le _).trans_lt (hpos.trans_le (hack v hv)))).2
  have hstart : Fresh (.full nodes hnodup) C₁ A A.term C₁.history.length T i := by
    refine ⟨fun v => le_rfl, hled, hreached, fun k hk => ?_, fun k since r he hL => ?_⟩
    · -- what goes on at that moment has begun before
      have hbegun := hdated.begun k (he.follows.sim.nodes ▸ hk)
      cases htask : (C₁.servers k).task with
      | reading since | confirming since | awaiting since =>
          rw [htask] at hbegun
          exact fun hL => absurd (hbegun since rfl) (not_lt.2 hL)
      | _ => trivial
    · exact absurd (hdated.returned k since r he) (not_lt.2 hL)
  obtain ⟨A', -, -, hfresh⟩ : ∃ A', Endures (.full nodes hnodup) C' A' ∧ Dated C' ∧
      Fresh (.full nodes hnodup) C' A' A.term C₁.history.length T i := by
    refine hr.invariant (I := fun C => ∃ A', Endures (.full nodes hnodup) C A' ∧ Dated C ∧
      Fresh (.full nodes hnodup) C A' A.term C₁.history.length T i)
      (P := fun t => ¬ t.source.ReadsWrong t.action) ?_ ⟨A, he, hdated, hstart⟩ hok
    rintro C₂ action C₃ ⟨A₂, he₂, hdated₂, hfresh₂⟩ hs hno
    refine hfresh₂.stepOrRestart hdated₂ he₂ (fun hstray => hno hstray.readsWrong) ?_ hs
    rintro a rfl hearly
    exact hno (Or.inr hearly)
  exact hfresh.returned n since r hread hsince

/-- **A read returns no less than what was committed anywhere when it began**, in every run in which
nodes compact their logs, install snapshots, crash and come back, as long as no node strays and no
leader begins a read before it has committed in its term: whatever a node had committed by the
moment `C₁`, and perhaps forgotten since, a read that begins after that moment covers it. -/
theorem run_read_fresh (hinit : C.Initial) (hr : Run (stepOrRestart m₀) C ts C₁)
    (hr' : Run (stepOrRestart m₀) C₁ us C') (hok : ∀ t ∈ ts ++ us, ¬ t.source.ReadsWrong t.action)
    {since r : ℕ} (hread : Event.readReturned n since (.ok r) ∈ C'.history)
    (hsince : C₁.history.length ≤ since) {t : Transition (Cluster σ μ) RestartAction} (ht : t ∈ ts)
    {m : ℕ} (hm : m ∈ C.nodes) : (t.target.core m).commitIndex ≤ r := by
  have hts : ∀ t ∈ ts, ¬ t.source.Strays t.action :=
    fun t ht hno => hok t (List.mem_append_left _ ht) hno.readsWrong
  have hus : ∀ t ∈ us, ¬ t.source.ReadsWrong t.action :=
    fun t ht => hok t (List.mem_append_right _ ht)
  obtain ⟨A, he, hdated, hknown⟩ := run_known hinit hr hts
  exact read_covers he hdated hr' hus (hknown t ht m hm) hsince hread

/-- Node 2 serves a read. -/
def readAtTwo : List RestartCue :=
  ([.local 2 .drop, .local 2 .readIndex, .local 2 .beginRead, .local 2 .confirmLeadership,
    .deliver 12, .answer 5, .local 2 .finish, .local 2 .pollRead] : List Cue).map .cue

omit [Storage σ] [Snapshotable μ] [LawfulStorage σ] [DurableSnapshots σ] in
/-- Node 1 has committed a command and crashed; the read at the next leader covers it. -/
theorem run_read_fresh_crashed : ∃ (ts us : List _) (C₁ C : Cluster StorageContents Recorder) (r : ℕ),
    Run (stepOrRestart Recorder.new) compactingNodes ts C₁ ∧
      Run (stepOrRestart Recorder.new) C₁ us C ∧ (C₁.core 1).commitIndex = 0 ∧
      Event.readReturned 2 1 (.ok r) ∈ C.history ∧
      ∃ t ∈ ts, (t.target.core 1).commitIndex = 2 ∧ (t.target.core 1).commitIndex ≤ r := by
  obtain ⟨ts, C₁, hr, hok, ⟨t, ht, hcommit⟩, hback, hlen, hplay⟩ := exists_run_of_play
    (stepOrRestart Recorder.new) chooseOrRestart compactingNodes crashBoth
    (P := fun ts C₁ => (∀ t ∈ ts, ¬ t.source.ReadsWrong t.action) ∧
      (∃ t ∈ ts, (t.target.core 1).commitIndex = 2) ∧ (C₁.core 1).commitIndex = 0 ∧
      C₁.history.length ≤ 1 ∧
      ∃ r ∈ play (stepOrRestart Recorder.new) chooseOrRestart C₁ readAtTwo,
        (∀ t ∈ r.1, ¬ t.source.ReadsWrong t.action) ∧
          Event.readReturned 2 1 (.ok 3) ∈ r.2.history) (by decide +kernel)
  obtain ⟨us, C, hr', hok', hread⟩ := exists_run_of_play (stepOrRestart Recorder.new)
    chooseOrRestart C₁ readAtTwo (P := fun us C => (∀ t ∈ us, ¬ t.source.ReadsWrong t.action) ∧
      Event.readReturned 2 1 (.ok 3) ∈ C.history) hplay
  refine ⟨ts, us, C₁, C, 3, hr, hr', hback, hread, t, ht, hcommit, ?_⟩
  exact run_read_fresh compactingNodes_initial hr hr'
    (fun t ht => (List.mem_append.1 ht).elim (hok t) (hok' t)) hread hlen ht (by decide)

end Cluster

end RaftVibe
