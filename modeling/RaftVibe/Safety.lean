/-
**Log matching, leader completeness and state machine safety**, over runs of the cluster with
snapshots disabled.

All three are read off the replicated log that the cluster simulates.  Log matching needs no
promises.  Leader completeness needs that nobody speaks for a term he does not lead:
`replicate_to_peers` reads the term under a lock of its own, after the role was checked under an
earlier one, and a node that was deposed in between sends entries in the name of the new term.  State
machine safety needs in addition that a follower raises its commit index no further than the request
reaches, which `min(leader_commit, last_log_index)` does not ensure.

Main definitions:

* `RaftVibe.Cluster.ReplicatesOutOfRole`, `RaftVibe.Cluster.CommitsUnchecked` — the two branches;
* `RaftVibe.Cluster.Advances`, `RaftVibe.Cluster.Applies` — a leader commits an entry, a node applies
  one.

Main results:

* `RaftVibe.Cluster.run_log_matching`, `RaftVibe.Cluster.run_leader_completeness`,
  `RaftVibe.Cluster.run_applies_same`.
-/

import RaftVibe.Roles
import RaftVibe.SimulationStep

set_option relaxedAutoImplicit false
set_option autoImplicit false

namespace RaftVibe

open ReplicatedLog Runs

variable {σ μ : Type} [Storage σ] [Snapshotable μ] {S : Setting} {A A' : State ℕ LogEntry}
  {C C' : Cluster σ μ} {ts : List (Transition (Cluster σ μ) Action)}

/-! ### Runs -/

/-- The relation holds at the end of a run. -/
theorem Sim.run (h : Sim S C A) (hst : S.Stores σ) (hr : Run Cluster.step C ts C')
    (hallow : ∀ t ∈ ts, S.Allows t.source t.action) : ∃ A', Sim S C' A' := by
  refine hr.invariant (I := fun C => ∃ A, Sim S C A) (P := fun t => S.Allows t.source t.action)
    ?_ ⟨A, h⟩ hallow
  rintro C₁ a C₂ ⟨A₁, h₁⟩ hs hallow
  obtain ⟨A₂, -, h₂⟩ := h₁.step hst hallow hs
  exact ⟨A₂, h₂⟩

/-- Snapshots are disabled: there is no promise to keep about storage. -/
def Setting.plain (nodes : List ℕ) (hnodup : nodes.Nodup) (honest strict : Prop)
    (h : strict → honest) : Setting where
  nodes
  nodup := hnodup
  honest
  strict
  compacting := False
  honest_of_strict := h
  strict_of_compacting := False.elim

/-- Snapshots are disabled at every node. -/
def Cluster.NoSnapshots (C : Cluster σ μ) : Prop :=
  ∀ n ∈ C.nodes, (C.core n).snapshotThreshold = 0

omit [Snapshotable μ] in
/-- Without a snapshot, the entry at an index is the one of the log. -/
theorem NodeRel.getLogEntry_iff {n i : ℕ} {core : RaftCore σ μ} {e : LogEntry}
    (h : NodeRel S A n core) (hc : ¬ S.compacting) :
    core.getLogEntry i = some e ↔ 0 < i ∧ (A.log n)[i - 1]? = some e := by
  rw [h.log.getLogEntry_iff, (h.plain hc).2]

namespace Cluster

/-- **`replicate_to_peers` speaks for a term its node does not lead**: the node was deposed after it
has checked its role. -/
def ReplicatesOutOfRole (C : Cluster σ μ) : Action → Prop
  | .local n .replicate => (C.core n).state ≠ .leader
  | _ => False

instance (C : Cluster σ μ) (action : Action) : Decidable (C.ReplicatesOutOfRole action) := by
  unfold ReplicatesOutOfRole
  split <;> infer_instance

/-- A follower raises its commit index above the entries that were compared. -/
def CommitsUnchecked (C : Cluster σ μ) : Action → Prop
  | .deliver envelope =>
      match envelope.request with
      | .appendEntries args => (C.core envelope.target).CommitsUnchecked args
      | _ => False
  | .local _ _ => False

instance (C : Cluster σ μ) : (action : Action) → Decidable (C.CommitsUnchecked action)
  | .deliver ⟨_, target, _, .appendEntries args⟩ =>
      inferInstanceAs (Decidable ((C.core target).CommitsUnchecked args))
  | .deliver ⟨_, _, _, .requestVote _⟩ => instDecidableFalse
  | .deliver ⟨_, _, _, .installSnapshot _⟩ => instDecidableFalse
  | .local _ _ => instDecidableFalse

omit [Storage σ] [Snapshotable μ] in
/-- What is to be excluded when snapshots are disabled. -/
theorem allows_plain {nodes : List ℕ} {hnodup : nodes.Nodup} {honest strict : Prop}
    {h : strict → honest} {action : Action} (hrole : honest → ¬ C.ReplicatesOutOfRole action)
    (hcheck : strict → ¬ C.CommitsUnchecked action) :
    (Setting.plain nodes hnodup honest strict h).Allows C action := by
  cases action with
  | deliver envelope =>
      show Setting.Admits _ _ envelope.request
      simp only [CommitsUnchecked] at hcheck
      cases hreq : envelope.request with
      | requestVote args => trivial
      | appendEntries args =>
          rw [hreq] at hcheck
          exact ⟨False.elim, hcheck⟩
      | installSnapshot args => exact False.elim
  | «local» n action =>
      cases action with
      | replicate => exact ⟨fun hh => not_not.1 (hrole hh), False.elim⟩
      | _ => trivial

/-! ### Log matching -/

/-- **Log matching**: if the logs of two nodes contain entries with the same index and the same
term, they have the same entries up to there. -/
theorem run_log_matching (hinit : C.Initial) (hplain : C.NoSnapshots)
    (hr : Run Cluster.step C ts C') {m n : ℕ} (hm : m ∈ C.nodes) (hn : n ∈ C.nodes)
    {x y : LogEntry} (hx : x ∈ (C'.core m).log) (hy : y ∈ (C'.core n).log)
    (hi : x.index = y.index) (ht : x.term = y.term) :
    ∀ j, 1 ≤ j → j ≤ x.index → ∃ e, (C'.core m).getLogEntry j = some e ∧
      (C'.core n).getLogEntry j = some e := by
  let S : Setting := .plain C.nodes hinit.nodup False False id
  have hsim : Sim S C (State.init ℕ LogEntry) := hinit.sim rfl fun _ => hplain
  obtain ⟨A, h⟩ := hsim.run False.elim hr fun t _ => allows_plain False.elim False.elim
  have hinv := Setting.inv h.reachable
  have hnm := h.node m hm
  have hnn := h.node n hn
  -- without a snapshot the vector is the whole log
  have hmem : ∀ {k : ℕ} {z : LogEntry}, NodeRel S A k (C'.core k) → z ∈ (C'.core k).log →
      1 ≤ z.index ∧ (A.log k)[z.index - 1]? = some z := by
    intro k z hk hz
    rw [hk.log.log_eq, (hk.plain id).2, List.drop_zero] at hz
    obtain ⟨hpos, -, hget⟩ := hk.log.indexed.mem hz
    exact ⟨hpos, hget⟩
  obtain ⟨hpos, hgx⟩ := hmem hnm hx
  obtain ⟨-, hgy⟩ := hmem hnn hy
  rw [← hi] at hgy
  have htake := logMatching_of_valid (hinv.valid_log m) (hinv.valid_log n) _ _ _ hgx hgy ht
  rw [Nat.sub_add_cancel hpos] at htake
  intro j hj hjx
  have hlt : j - 1 < x.index := by omega
  have hlen := (List.getElem?_eq_some_iff.1 hgx).1
  have hget := List.getElem?_eq_getElem (show j - 1 < (A.log m).length by omega)
  refine ⟨_, (hnm.getLogEntry_iff id).2 ⟨hj, hget⟩, (hnn.getLogEntry_iff id).2 ⟨hj, ?_⟩⟩
  rw [← List.getElem?_take_of_lt hlt, ← htake, List.getElem?_take_of_lt hlt, hget]

theorem threeNodes_noSnapshots : threeNodes.NoSnapshots := fun _ _ => rfl

/-- Node 1 is leader and sends a command to node 2. -/
def replicateFirst : List Cue :=
  electFirst ++ [.local 1 (.submit "SET x 1"), .local 1 .replicate, .deliver 4]

/-- The logs of nodes 1 and 2 match after the replication. -/
theorem run_log_matching_replicated : ∃ (ts : List _) (C : Cluster StorageContents Recorder),
    Run step threeNodes ts C ∧ ⟨1, 2, "SET x 1"⟩ ∈ (C.core 1).log ∧
      ⟨1, 2, "SET x 1"⟩ ∈ (C.core 2).log ∧ ∀ j, 1 ≤ j → j ≤ 2 →
        ∃ e, (C.core 1).getLogEntry j = some e ∧ (C.core 2).getLogEntry j = some e := by
  obtain ⟨ts, C, hr, h₁, h₂⟩ := exists_run_of_play step choose threeNodes replicateFirst
    (P := fun _ C => ⟨1, 2, "SET x 1"⟩ ∈ (C.core 1).log ∧ ⟨1, 2, "SET x 1"⟩ ∈ (C.core 2).log)
    (by decide)
  exact ⟨ts, C, hr, h₁, h₂, run_log_matching threeNodes_initial threeNodes_noSnapshots hr
    (by decide) (by decide) h₁ h₂ rfl rfl⟩

end Cluster

/-! ### What leaders commit -/

/-- Only answers to AppendEntries requests raise the commit index of a node by its own loop. -/
theorem Acts.commit_cases {s : Server σ μ} {now : ℕ} {action : LocalAction} {e : Effect σ μ}
    (ha : Acts s now action e) : e.server.core.commitIndex = s.core.commitIndex ∨
      ∃ envelope result i commit results, action = .answer envelope (.appendEntries result) ∧
        s.core.handleAppendEntriesResult envelope.target i result =
          .ok (e.server.core, commit, results) ∧
        ((∃ command w, s.task = .replicating command i w) ∨
          ∃ args, envelope.request = .appendEntries args ∧ i = args.lastEntryIndex) := by
  cases ha with
  | submit _ _ h =>
      left
      rcases RaftCore.appendLogEntry_ok h with ⟨-, rfl, -⟩ | ⟨-, _, _, -, -, -, rfl⟩ <;> rfl
  | startElection _ _ h =>
      obtain ⟨_, -, rfl⟩ := RaftCore.startElection_ok h
      exact Or.inl rfl
  | submitDone ht h => exact Or.inr ⟨_, _, _, _, _, rfl, h, Or.inl ⟨_, _, ht⟩⟩
  | submitPending ht h => exact Or.inr ⟨_, _, _, _, _, rfl, h, Or.inl ⟨_, _, ht⟩⟩
  | voteWon _ h => exact Or.inl (RaftCore.handleRequestVoteResult_commitIndex h)
  | votePending _ h => exact Or.inl (RaftCore.handleRequestVoteResult_commitIndex h)
  | heartbeatAppended ht hreq h =>
      exact Or.inr ⟨_, _, _, _, _, rfl, h, Or.inr ⟨_, hreq, rfl⟩⟩
  | heartbeatInstalled => exact Or.inl (RaftCore.handleInstallSnapshotResult_commitIndex ..)
  | _ => exact Or.inl rfl

/-- **What a leader commits on an answer is committed** in the replicated log, in its term. -/
theorem Sim.commits_of_answer (h : Sim S C A) (hst : S.Stores σ) (hh : S.honest) {n : ℕ}
    {action : LocalAction} (hs : C.step (.local n action) = some C')
    (hlt : (C.core n).commitIndex < (C'.core n).commitIndex) :
    (C'.core n).state = .leader ∧ (C'.core n).currentTerm = A.term n ∧
      Committed S.quorums A (A.term n) (C'.core n).commitIndex := by
  obtain ⟨hn, hav, e, ha, rfl⟩ := Cluster.step_local hs
  rw [h.nodes] at hn
  have hself : (C.perform n e).core n = e.server.core := by
    rw [Cluster.core, Cluster.perform_servers_self]
  rw [hself] at hlt ⊢
  have hnode := h.node n hn
  have htask := h.task n hn
  rcases ha.commit_cases with heq | ⟨envelope, result, i, commit, results, rfl, hr, hkind⟩
  · exact absurd hlt (heq ▸ lt_irrefl _)
  obtain ⟨he, hrel, hrep⟩ := h.answered hn hav
  have hpeer := hnode.mem_peers.2 ⟨hrel.target, (htask.waiting _ he).2 ▸ hrel.ne.symm⟩
  have hack : S.honest → (C.core n).state = .leader → result.success = true →
      i ≤ A.acked envelope.target (A.term n) := by
    intro hh hl hsucc
    rcases hkind with ⟨command, w, ht⟩ | ⟨args, hreq, rfl⟩
    · exact htask.acked_of_replicating hnode ht he hrep hh hl hsucc
    · exact htask.acked_of_heartbeat hnode he hrel hreq hrep hh hl hsucc
  obtain ⟨A', -, -, hcom⟩ := hnode.handleAppendEntriesResult h.reachable hst hn hpeer hack hr
  rcases RaftCore.handleAppendEntriesResult_commit hr with
    ⟨heq, -⟩ | ⟨-, hl', hterm, -, rfl, -⟩
  · exact absurd hlt (heq ▸ lt_irrefl _)
  · exact ⟨hl', hterm.trans hnode.term_eq, (hcom _ rfl hh).2.2.2⟩

namespace Cluster

/-! ### Leader completeness -/

/-- Node `l` handles an answer to an AppendEntries request. -/
def AnswersAppend (l : ℕ) : Action → Prop
  | .local n (.answer _ (.appendEntries _)) => n = l
  | _ => False

instance (l : ℕ) (action : Action) : Decidable (AnswersAppend l action) := by
  unfold AnswersAppend
  split <;> infer_instance

/-- Node `l` raises its commit index over the entry `e` at index `i`, on an answer to an
AppendEntries request. -/
def Advances (t : Transition (Cluster σ μ) Action) (l i : ℕ) (e : LogEntry) : Prop :=
  AnswersAppend l t.action ∧ (t.source.core l).commitIndex < i ∧
    i ≤ (t.target.core l).commitIndex ∧ (t.target.core l).getLogEntry i = some e

instance (t : Transition (Cluster σ μ) Action) (l i : ℕ) (e : LogEntry) :
    Decidable (Advances t l i e) := by
  unfold Advances
  infer_instance

/-- The entries that leaders have committed along the run `ts` are committed in the replicated
log. -/
def RecordsCommits (S : Setting) (ts : List (Transition (Cluster σ μ) Action))
    (A : State ℕ LogEntry) : Prop :=
  ∀ t ∈ ts, ∀ l ∈ S.nodes, ∀ i e, Advances t l i e →
    ∃ k, Committed S.quorums A (t.target.core l).currentTerm k ∧ 0 < i ∧
      ((A.llog (t.target.core l).currentTerm).take k)[i - 1]? = some e

omit [Storage σ] [Snapshotable μ] in
theorem RecordsCommits.frame {n : ℕ} (h : RecordsCommits S ts A) (hf : Frame n A A') :
    RecordsCommits S ts A' := by
  intro t ht l hl i e hadv
  obtain ⟨k, hk, hi, he⟩ := h t ht l hl i e hadv
  exact ⟨k, hk.frame hf, hi, by rwa [hk.take_llog hf]⟩

/-- What a leader commits in one step. -/
theorem RecordsCommits.snoc (h : RecordsCommits S ts A) (hsim : Sim S C A) (hst : S.Stores σ)
    (hh : S.honest) (hc : ¬ S.compacting) {action : Action} (hs : C.step action = some C') {n : ℕ}
    (hm : S.Moves n A A') (hsim' : Sim S C' A') :
    RecordsCommits S (ts ++ [⟨C, action, C'⟩]) A' := by
  intro t ht l hl i e hadv
  rcases List.mem_append.1 ht with ht | ht
  · exact h.frame hm.frame t ht l hl i e hadv
  · obtain rfl := List.mem_singleton.1 ht
    obtain ⟨hans, hlt, hle, he⟩ := hadv
    obtain ⟨a, rfl⟩ : ∃ a, action = .local l a := by
      cases action with
      | deliver envelope => exact absurd hans (by simp [AnswersAppend])
      | «local» n a =>
          cases a with
          | answer envelope reply =>
              cases reply with
              | appendEntries result => exact ⟨_, congrArg (Action.local · _) hans⟩
              | _ => exact absurd hans (by simp [AnswersAppend])
          | _ => exact absurd hans (by simp [AnswersAppend])
    obtain ⟨hleader, hterm, hk⟩ := hsim.commits_of_answer hst hh hs (hlt.trans_le hle)
    rw [← hterm] at hk
    have hnode := hsim'.node l hl
    have hlog := (hnode.leads hleader).log
    rw [← hnode.term_eq] at hlog
    obtain ⟨hi, he⟩ := (hnode.getLogEntry_iff hc).1 he
    have hlt' : i - 1 < (C'.core l).commitIndex := (Nat.sub_lt hi Nat.one_pos).trans_le hle
    refine ⟨_, hk.frame hm.frame, hi, ?_⟩
    rw [← hlog, List.getElem?_take_of_lt hlt', he]

/-- **Leader completeness**, in every run in which no node replicates out of role: the entries over
which a leader has advanced its commit index are in the log of whoever is leader of its term or a
later one. -/
theorem run_leader_completeness (hinit : C.Initial) (hplain : C.NoSnapshots)
    (hr : Run Cluster.step C ts C')
    (hrole : ∀ t ∈ ts, ¬ t.source.ReplicatesOutOfRole t.action)
    {t : Transition (Cluster σ μ) Action} (ht : t ∈ ts) {l i : ℕ} {e : LogEntry}
    (hl : l ∈ C.nodes) (hadv : Advances t l i e) {n : ℕ} (hn : n ∈ C.nodes)
    (hleader : (C'.core n).state = .leader)
    (hterm : (t.target.core l).currentTerm ≤ (C'.core n).currentTerm) :
    (C'.core n).getLogEntry i = some e := by
  let S : Setting := .plain C.nodes hinit.nodup True False fun _ => trivial
  have hsim : Sim S C (State.init ℕ LogEntry) := hinit.sim rfl fun _ => hplain
  have hrun : ∃ A, Sim S C' A ∧ RecordsCommits S ts A := by
    refine hr.history (J := fun ts C => ∃ A, Sim S C A ∧ RecordsCommits S ts A)
      (P := fun t => ¬ t.source.ReplicatesOutOfRole t.action) ?_ ⟨_, hsim, by simp [RecordsCommits]⟩
      hrole
    rintro ts C₁ a C₂ ⟨A₁, h₁, hrec⟩ hs hno
    obtain ⟨A₂, hm, h₂⟩ := h₁.step False.elim (allows_plain (fun _ => hno) False.elim) hs
    exact ⟨A₂, h₂, hrec.snoc h₁ False.elim trivial id hs hm h₂⟩
  obtain ⟨A, h, hrec⟩ := hrun
  obtain ⟨k, hk, hi, he⟩ := hrec t ht l hl i e hadv
  have hnode := h.node n hn
  have hleads := hnode.leads hleader
  rw [hnode.getLogEntry_iff id, hleads.log]
  refine ⟨hi, ?_⟩
  obtain ⟨r, hr⟩ : (A.llog (t.target.core l).currentTerm).take k <+: A.llog (A.term n) :=
    (Setting.kept h.reachable trivial).committed_prefix_llog (Setting.inv h.reachable)
      (Or.inr ⟨_, k, le_rfl, hk, List.prefix_rfl⟩) hleads.leader (hnode.term_eq ▸ hterm)
  rw [← hr, List.getElem?_append_left (List.getElem?_eq_some_iff.1 he).1, he]

/-- Node 2 answers, and node 1 commits the command. -/
def commitFirst : List Cue := replicateFirst ++ [.answer 1]

/-- A leader that has committed a command has it in its log. -/
theorem run_leader_completeness_committed : ∃ (ts : List _)
    (C : Cluster StorageContents Recorder), Run step threeNodes ts C ∧
      (∃ t ∈ ts, Advances t 1 2 ⟨1, 2, "SET x 1"⟩) ∧ (C.core 1).state = .leader ∧
      (C.core 1).getLogEntry 2 = some ⟨1, 2, "SET x 1"⟩ := by
  obtain ⟨ts, C, hr, hrole, hadv, hl⟩ := exists_run_of_play step choose threeNodes commitFirst
    (P := fun ts C => (∀ t ∈ ts, ¬ t.source.ReplicatesOutOfRole t.action) ∧
      (∃ t ∈ ts, Advances t 1 2 ⟨1, 2, "SET x 1"⟩ ∧
        (t.target.core 1).currentTerm ≤ (C.core 1).currentTerm) ∧ (C.core 1).state = .leader)
    (by decide)
  obtain ⟨t, ht, hadv, hterm⟩ := hadv
  exact ⟨ts, C, hr, ⟨t, ht, hadv⟩, hl, run_leader_completeness threeNodes_initial
    threeNodes_noSnapshots hr hrole ht (by decide) hadv (by decide) hl hterm⟩

/-- Node 1 has appended a command when it is deposed by node 2, which commits its no-op with the
vote of node 3.  Then node 1 replicates, now as if it led term 2, and node 3 gives the committed
entry up.  Node 3 wins term 3. -/
def loseCommitted : List Cue :=
  electFirst ++ [.local 1 (.submit "SET x 1"),
    .local 2 .startElection, .local 2 .requestVotes, .deliver 4, .deliver 5, .answer 2,
    .local 2 .sendHeartbeat, .deliver 7, .answer 3,
    .local 1 .replicate, .deliver 9,
    .local 3 .startElection, .local 3 .requestVotes, .deliver 10, .answer 5]

/-- **A committed entry is lost**: the leader of term 3 does not have what the leader of term 2 has
committed. -/
theorem committed_lost : ∃ (ts : List _) (C : Cluster StorageContents Recorder),
    threeNodes.Initial ∧ threeNodes.NoSnapshots ∧ Run step threeNodes ts C ∧
      (∃ t ∈ ts, Advances t 2 1 ⟨2, 1, noopCommand⟩ ∧ (t.target.core 2).currentTerm = 2) ∧
      (C.core 3).state = .leader ∧ (C.core 3).currentTerm = 3 ∧
      (C.core 3).getLogEntry 1 ≠ some ⟨2, 1, noopCommand⟩ := by
  obtain ⟨ts, C, hr, hP⟩ := exists_run_of_play step choose threeNodes loseCommitted
    (P := fun ts C =>
      (∃ t ∈ ts, Advances t 2 1 ⟨2, 1, noopCommand⟩ ∧ (t.target.core 2).currentTerm = 2) ∧
      (C.core 3).state = .leader ∧ (C.core 3).currentTerm = 3 ∧
      (C.core 3).getLogEntry 1 ≠ some ⟨2, 1, noopCommand⟩) (by decide)
  exact ⟨ts, C, threeNodes_initial, threeNodes_noSnapshots, hr, hP⟩

/-! ### State machine safety -/

/-- Node `n` applies the entry `e` at index `i`. -/
def Applies (t : Transition (Cluster σ μ) Action) (n i : ℕ) (e : LogEntry) : Prop :=
  (t.source.core n).lastApplied < i ∧ i ≤ (t.target.core n).lastApplied ∧
    (t.target.core n).getLogEntry i = some e

instance (t : Transition (Cluster σ μ) Action) (n i : ℕ) (e : LogEntry) :
    Decidable (Applies t n i e) := by
  unfold Applies
  infer_instance

/-- In `u`, the leader that the request names has captured the request, with the entries `ℓ`
committed. -/
structure Captures (u : Transition (Cluster σ μ) Action) (envelope : Envelope)
    (args : AppendEntriesArgs) (ℓ : List LogEntry) : Prop where
  sent : envelope ∈ sent u
  leader : (u.source.core args.leaderId).state = .leader
  term : (u.source.core args.leaderId).currentTerm = args.term
  commit : (u.source.core args.leaderId).commitIndex = args.leaderCommit
  length : ℓ.length = args.leaderCommit
  entries : ∀ i, 0 < i → i ≤ args.leaderCommit →
    (u.source.core args.leaderId).getLogEntry i = ℓ[i - 1]?

/-- What nodes have applied along the run `ts`, and what the requests in `C` announce, is committed
in the replicated log. -/
structure RecordsApplied (S : Setting) (ts : List (Transition (Cluster σ μ) Action))
    (C : Cluster σ μ) (A : State ℕ LogEntry) : Prop where
  applied : ∀ t ∈ ts, ∀ n ∈ S.nodes, ∀ i e, Applies t n i e →
    ∃ T ℓ, CommittedBy S.quorums A T ℓ ∧ ℓ[i - 1]? = some e
  announced : ∀ envelope ∈ C.requests, ∀ args, envelope.request = .appendEntries args →
    ∃ u ∈ ts, ∃ ℓ, Captures u envelope args ℓ ∧ CommittedBy S.quorums A args.term ℓ

/-- Whoever builds an AppendEntries request is leader, in a run in which nobody replicates out of
role. -/
theorem leader_of_sent {n : ℕ} {now : ℕ} {action : LocalAction} {e : Effect σ μ}
    (ha : Acts (C.servers n) now action e) (hrole : ¬ C.ReplicatesOutOfRole (.local n action))
    {envelope : Envelope} (he : envelope ∈ e.sent) {args : AppendEntriesArgs}
    (hreq : envelope.request = .appendEntries args) : (C.core n).state = .leader := by
  cases ha with
  | replicate => exact not_not.1 hrole
  | requestVotes =>
      have hr := (Server.mem_newRound.1 he).2.2.2
      rw [hreq] at hr
      simp at hr
  | sendHeartbeat hl => exact hl
  | confirmLeadership _ hl => exact hl
  | _ => exact absurd he (by simp [Server.proceed])

omit [Snapshotable μ] in
/-- An AppendEntries request tells the term and the commit index of its sender. -/
theorem appendEntries_of_sent {s : Server σ μ} {now : ℕ} {action : LocalAction} {e : Effect σ μ}
    [Snapshotable μ] (ha : Acts s now action e) {envelope : Envelope} (he : envelope ∈ e.sent)
    {args : AppendEntriesArgs} (hreq : envelope.request = .appendEntries args) :
    args.leaderId = s.core.id ∧ args.term = s.core.currentTerm ∧
      args.leaderCommit = s.core.commitIndex := by
  obtain ⟨-, -, -, -, hor⟩ := ha.sent_cases he
  rw [hreq] at hor
  rcases hor with ⟨command, i, -, heq⟩ | ⟨-, heq⟩ | ⟨-, heq⟩ | ⟨-, heq⟩
  · obtain rfl := Request.appendEntries.inj heq
    exact ⟨rfl, rfl, rfl⟩
  · exact absurd heq (by simp)
  · simp only [RaftCore.heartbeatRequest] at heq
    split at heq
    · split at heq <;> simp at heq
    · obtain rfl := Request.appendEntries.inj (Option.some.inj heq)
      exact ⟨rfl, rfl, rfl⟩
  · obtain rfl := Request.appendEntries.inj heq
    exact ⟨rfl, rfl, rfl⟩

/-- What is applied and announced in one step. -/
theorem RecordsApplied.snoc (h : RecordsApplied S ts C A) (hsim : Sim S C A) (hs : S.strict)
    (hc : ¬ S.compacting) {action : Action} (hrole : ¬ C.ReplicatesOutOfRole action)
    (hstep : C.step action = some C') {n : ℕ} (hm : S.Moves n A A') (hsim' : Sim S C' A') :
    RecordsApplied S (ts ++ [⟨C, action, C'⟩]) C' A' where
  applied t ht m hm' i e happ := by
    rcases List.mem_append.1 ht with ht | ht
    · obtain ⟨T, ℓ, hℓ, he⟩ := h.applied t ht m hm' i e happ
      exact ⟨T, ℓ, hℓ.frame hm.frame, he⟩
    · obtain rfl := List.mem_singleton.1 ht
      obtain ⟨-, hle, he⟩ := happ
      have hle : i ≤ (C'.core m).lastApplied := hle
      have hnode := hsim'.node m hm'
      have hcom := hnode.commits hs
      rw [hcom.applied] at hle
      obtain ⟨hpos, he⟩ := (hnode.getLogEntry_iff hc).1 he
      refine ⟨_, _, hcom.committed, ?_⟩
      rw [List.getElem?_take_of_lt ((Nat.sub_lt hpos Nat.one_pos).trans_le hle), he]
  announced envelope he args hreq := by
    have hold : envelope ∈ C.requests → ∃ u ∈ ts ++ [⟨C, action, C'⟩], ∃ ℓ,
        Captures u envelope args ℓ ∧ CommittedBy S.quorums A' args.term ℓ := by
      intro he
      obtain ⟨u, hu, ℓ, hcap, hℓ⟩ := h.announced envelope he args hreq
      exact ⟨u, List.mem_append_left _ hu, ℓ, hcap, hℓ.frame hm.frame⟩
    cases action with
    | deliver env =>
        obtain ⟨-, core, reply, -, rfl⟩ := step_deliver hstep
        exact hold he
    | «local» l action =>
        obtain ⟨hl, -, eff, ha, rfl⟩ := step_local hstep
        rcases List.mem_append.1 he with he | hsent
        · exact hold he
        rw [hsim.nodes] at hl
        have hnode := hsim.node l hl
        have hcom := hnode.commits hs
        obtain ⟨hid, hterm, hcommit⟩ := appendEntries_of_sent ha hsent hreq
        obtain rfl : l = args.leaderId := (hid.trans hnode.id_eq).symm
        have hterm : args.term = (C.core args.leaderId).currentTerm := hterm
        have hcommit : args.leaderCommit = (C.core args.leaderId).commitIndex := hcommit
        refine ⟨_, List.mem_append_right _ (List.mem_singleton_self _),
          (A.log args.leaderId).take args.leaderCommit, ⟨?_, leader_of_sent ha hrole hsent hreq,
            hterm.symm, hcommit.symm, ?_, fun i hpos hle => ?_⟩, ?_⟩
        · simpa [Cluster.sent, Cluster.perform] using hsent
        · rw [List.length_take, hcommit, min_eq_left hcom.commit_le]
        · rw [List.getElem?_take_of_lt ((Nat.sub_lt hpos Nat.one_pos).trans_le hle)]
          ext e
          exact (hnode.getLogEntry_iff hc).trans (and_iff_right hpos)
        · rw [hterm, hnode.term_eq, hcommit]
          exact hcom.committed.frame hm.frame

omit [Snapshotable μ] in
/-- Two lists of committed entries have the same entry at an index. -/
theorem committed_agree (h : Sim S C A) (hh : S.honest) {T T' i : ℕ} {ℓ ℓ' : List LogEntry}
    (hℓ : CommittedBy S.quorums A T ℓ) (hℓ' : CommittedBy S.quorums A T' ℓ') {x y : LogEntry}
    (hx : ℓ[i]? = some x) (hy : ℓ'[i]? = some y) : x = y := by
  have hlen := (List.getElem?_eq_some_iff.1 hx).1
  have hlen' := (List.getElem?_eq_some_iff.1 hy).1
  have hsame : ℓ[i]? = ℓ'[i]? := by
    rcases (Setting.kept h.reachable hh).committed_comparable (Setting.inv h.reachable) hℓ hℓ'
      with ⟨r, rfl⟩ | ⟨r, rfl⟩
    · rw [List.getElem?_append_left hlen]
    · rw [List.getElem?_append_left hlen']
  rw [hx, hy] at hsame
  exact Option.some.inj hsame

/-- What is known at the end of a run in which no node replicates out of role and no commit index rises
over entries that were not compared. -/
theorem recordsApplied_of_run (hinit : C.Initial) (hplain : C.NoSnapshots)
    (hr : Run Cluster.step C ts C')
    (hrole : ∀ t ∈ ts, ¬ t.source.ReplicatesOutOfRole t.action)
    (hcheck : ∀ t ∈ ts, ¬ t.source.CommitsUnchecked t.action) :
    ∃ A, Sim (.plain C.nodes hinit.nodup True True fun _ => trivial) C' A ∧
      RecordsApplied (.plain C.nodes hinit.nodup True True fun _ => trivial) ts C' A := by
  let S : Setting := .plain C.nodes hinit.nodup True True fun _ => trivial
  have hsim : Sim S C (State.init ℕ LogEntry) := hinit.sim rfl fun _ => hplain
  have hstart : RecordsApplied S [] C (State.init ℕ LogEntry) := ⟨by simp, by simp [hinit.requests]⟩
  refine hr.history (J := fun ts C => ∃ A, Sim S C A ∧ RecordsApplied S ts C A)
    (P := fun t => ¬ t.source.ReplicatesOutOfRole t.action ∧ ¬ t.source.CommitsUnchecked t.action)
    ?_ ⟨_, hsim, hstart⟩ fun t ht => ⟨hrole t ht, hcheck t ht⟩
  rintro us C₁ a C₂ ⟨A₁, h₁, hrec⟩ hs ⟨hno, hcmp⟩
  obtain ⟨A₂, hm, h₂⟩ := h₁.step False.elim (allows_plain (fun _ => hno) fun _ => hcmp) hs
  exact ⟨A₂, h₂, hrec.snoc h₁ trivial id hno hs hm h₂⟩

/-- A request raises the commit index at most to the leader's. -/
theorem commitIndex_of_deliver {envelope : Envelope} {args : AppendEntriesArgs}
    (hreq : envelope.request = .appendEntries args)
    (hs : C.step (.deliver envelope) = some C')
    (hlt : (C.core envelope.target).commitIndex < (C'.core envelope.target).commitIndex) :
    (C'.core envelope.target).commitIndex ≤ args.leaderCommit := by
  obtain ⟨-, core, reply, hrec, rfl⟩ := step_deliver hs
  have hself : (C.receive envelope core reply).core envelope.target = core := by
    rw [Cluster.core, receive_servers_self]
  rw [hself] at hlt ⊢
  rw [hreq] at hrec
  rcases Server.receive_ok hrec with ⟨_, _, heq, -, -⟩ | ⟨args', out, heq, -, ha⟩ | ⟨_, _, heq, -, -⟩
  · exact absurd heq (by simp)
  · obtain rfl := Request.appendEntries.inj heq
    obtain ⟨core₁, h₁, hor⟩ := RaftCore.handleAppendEntries_ok ha
    have hci := (RaftCore.observeTerm_log h₁).2.2.2
    rcases hor with ⟨-, rfl, -⟩ | ⟨-, core₂, rfl, ⟨rfl, -⟩ | ⟨-, hacc, -⟩⟩
    · exact absurd hlt (hci ▸ lt_irrefl _)
    · exact absurd hlt (hci ▸ lt_irrefl _)
    · obtain ⟨s, core₃, -, rfl, ⟨-, rfl⟩ | ⟨-, results, happly⟩⟩ := RaftCore.acceptEntries_ok hacc
      · exact absurd hlt (hci ▸ lt_irrefl _)
      · obtain ⟨_, _, _, _, _, _, rfl⟩ := RaftCore.applyCommittedEntries_eq happly
        exact min_le_left _ _
  · exact absurd heq (by simp)

/-- **State machine safety**, in every run in which no node replicates out of role and no request
raises a commit index above the entries that were compared: no two nodes apply different entries at
an index; and when a request raises a commit index to `N`, the follower has up to `N` the entries
that the leader had committed when it built the request. -/
theorem run_applies_same (hinit : C.Initial) (hplain : C.NoSnapshots)
    (hr : Run Cluster.step C ts C')
    (hrole : ∀ t ∈ ts, ¬ t.source.ReplicatesOutOfRole t.action)
    (hcheck : ∀ t ∈ ts, ¬ t.source.CommitsUnchecked t.action) :
    (∀ t ∈ ts, ∀ u ∈ ts, ∀ m ∈ C.nodes, ∀ n ∈ C.nodes, ∀ i x y,
      Applies t m i x → Applies u n i y → x = y) ∧
    ∀ us t vs, ts = us ++ t :: vs → ∀ envelope args, t.action = .deliver envelope →
      envelope.request = .appendEntries args →
      (t.source.core envelope.target).commitIndex < (t.target.core envelope.target).commitIndex →
      ∃ u ∈ us, envelope ∈ sent u ∧ (u.source.core args.leaderId).state = .leader ∧
        (u.source.core args.leaderId).currentTerm = args.term ∧
        (t.target.core envelope.target).commitIndex ≤
          (u.source.core args.leaderId).commitIndex ∧
        ∀ i, 0 < i → i ≤ (t.target.core envelope.target).commitIndex →
          ∃ e, (t.target.core envelope.target).getLogEntry i = some e ∧
            (u.source.core args.leaderId).getLogEntry i = some e := by
  let S : Setting := .plain C.nodes hinit.nodup True True fun _ => trivial
  have hrun : ∀ {us D}, Run Cluster.step C us D → (∀ t ∈ us, t ∈ ts) →
      ∃ A, Sim S D A ∧ RecordsApplied S us D A := fun hus hsub =>
    recordsApplied_of_run hinit hplain hus (fun t ht => hrole t (hsub t ht))
      fun t ht => hcheck t (hsub t ht)
  refine ⟨?_, ?_⟩
  · intro t ht u hu m hm n hn i x y hx hy
    obtain ⟨A, h, hrec⟩ := hrun hr fun _ ht => ht
    obtain ⟨T, ℓ, hℓ, hx⟩ := hrec.applied t ht m hm i x hx
    obtain ⟨T', ℓ', hℓ', hy⟩ := hrec.applied u hu n hn i y hy
    exact committed_agree h trivial hℓ hℓ' hx hy
  · rintro us t vs rfl envelope args haction hreq hlt
    obtain ⟨hpre, hs, -⟩ := hr.cut
    have ht : t ∈ us ++ t :: vs := List.mem_append_right _ (List.mem_cons_self ..)
    obtain ⟨A, h, hrec⟩ := hrun hpre fun _ hu => List.mem_append_left _ hu
    obtain ⟨A', hm, h'⟩ := h.step False.elim
      (allows_plain (fun _ => hrole t ht) fun _ => hcheck t ht) hs
    rw [haction] at hs
    have hmem := (step_deliver hs).1
    obtain ⟨u, hu, ℓ, hcap, hℓ⟩ := hrec.announced envelope hmem args hreq
    have hle := commitIndex_of_deliver hreq hs hlt
    refine ⟨u, hu, hcap.sent, hcap.leader, hcap.term, hcap.commit ▸ hle, fun i hpos hi => ?_⟩
    have hnode := h'.node _ (h.request envelope hmem).target
    have hcom := hnode.commits trivial
    obtain ⟨r, hr⟩ : (A'.log envelope.target).take (t.target.core envelope.target).commitIndex <+:
        ℓ := by
      have hlen : ((A'.log envelope.target).take
          (t.target.core envelope.target).commitIndex).length ≤ ℓ.length := by
        rw [hcap.length]
        exact (List.length_take_le _ _).trans hle
      rcases (Setting.kept h'.reachable trivial).committed_comparable (Setting.inv h'.reachable)
        hcom.committed (hℓ.frame hm.frame) with hpre | hpre
      · exact hpre
      · rw [hpre.eq_of_length (le_antisymm hpre.length_le hlen)]
    have hlt' : i - 1 < (t.target.core envelope.target).commitIndex :=
      (Nat.sub_lt hpos Nat.one_pos).trans_le hi
    have hget := List.getElem?_eq_getElem (hlt'.trans_le hcom.commit_le)
    refine ⟨_, (hnode.getLogEntry_iff id).2 ⟨hpos, hget⟩, ?_⟩
    rw [hcap.entries i hpos (hi.trans hle), ← hr, List.getElem?_append_left,
      List.getElem?_take_of_lt hlt', hget]
    rw [List.length_take, min_eq_left hcom.commit_le]
    exact hlt'

/-- After the commit of a command, node 1 sends a heartbeat, and node 2 commits it too. -/
def followCommit : List Cue := commitFirst ++ [.local 1 .sendHeartbeat, .deliver 6]

/-- Leader and follower apply the same command. -/
theorem run_applies_same_followed : ∃ (ts : List _) (C : Cluster StorageContents Recorder),
    Run step threeNodes ts C ∧ (∃ t ∈ ts, Applies t 1 2 ⟨1, 2, "SET x 1"⟩) ∧
      (∃ t ∈ ts, Applies t 2 2 ⟨1, 2, "SET x 1"⟩) ∧
      ∀ t ∈ ts, ∀ u ∈ ts, ∀ x y, Applies t 1 2 x → Applies u 2 2 y → x = y := by
  obtain ⟨ts, C, hr, hrole, hcheck, h₁, h₂⟩ := exists_run_of_play step choose threeNodes
    followCommit
    (P := fun ts _ => (∀ t ∈ ts, ¬ t.source.ReplicatesOutOfRole t.action) ∧
      (∀ t ∈ ts, ¬ t.source.CommitsUnchecked t.action) ∧
      (∃ t ∈ ts, Applies t 1 2 ⟨1, 2, "SET x 1"⟩) ∧ ∃ t ∈ ts, Applies t 2 2 ⟨1, 2, "SET x 1"⟩)
    (by decide)
  have hsame := (run_applies_same threeNodes_initial threeNodes_noSnapshots hr hrole hcheck).1
  exact ⟨ts, C, hr, h₁, h₂, fun t ht u hu x y =>
    hsame t ht u hu 1 (by decide) 2 (by decide) 2 x y⟩

/-- Node 1 has a command of term 1 that nobody else has got.  Node 2 wins term 2, commits another
command with node 3, and serves a read: the AppendEntries request that confirms its leadership
carries no entries, and node 1 follows its commit index. -/
def commitDivergent : List Cue :=
  electFirst ++ [.local 1 (.submit "SET x 1"), .local 1 .replicate,
    .local 2 .startElection, .local 2 .requestVotes, .deliver 7, .answer 1,
    .local 2 .sendHeartbeat, .local 2 .drop,
    .local 2 (.submit "SET y 2"), .local 2 .replicate, .deliver 11, .answer 2,
    .local 2 .readIndex, .local 2 .beginRead, .local 2 .confirmLeadership, .deliver 12]

/-- **Two nodes apply different commands at index 2**, although nobody replicates out of role. -/
theorem applied_differently : ∃ (ts : List _) (C : Cluster StorageContents Recorder),
    threeNodes.Initial ∧ threeNodes.NoSnapshots ∧ Run step threeNodes ts C ∧
      (∀ t ∈ ts, ¬ t.source.ReplicatesOutOfRole t.action) ∧
      (∃ t ∈ ts, Applies t 1 2 ⟨1, 2, "SET x 1"⟩) ∧
      ∃ t ∈ ts, Applies t 2 2 ⟨2, 2, "SET y 2"⟩ := by
  obtain ⟨ts, C, hr, hP⟩ := exists_run_of_play step choose threeNodes commitDivergent
    (P := fun ts _ => (∀ t ∈ ts, ¬ t.source.ReplicatesOutOfRole t.action) ∧
      (∃ t ∈ ts, Applies t 1 2 ⟨1, 2, "SET x 1"⟩) ∧
      ∃ t ∈ ts, Applies t 2 2 ⟨2, 2, "SET y 2"⟩) (by decide)
  exact ⟨ts, C, threeNodes_initial, threeNodes_noSnapshots, hr, hP⟩

end Cluster

end RaftVibe
