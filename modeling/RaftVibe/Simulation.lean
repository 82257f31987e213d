/-
**The cluster and the replicated log: the relation between them.**

`RaftVibe.ReplicatedLog` has no messages and no roles.  Here is what the parts of a cluster have to
do with its state: a node has the term, the vote and the log that the state records for it; a
leader has won its term and knows no more of its peers than they have acknowledged; a request
carries a prefix of its sender's log; a positive reply is a vote or an acknowledgement; and the
event loop waits for answers to requests of the term it is in.  All of it rests on facts that stay,
so a move of one node does not disturb what holds of the others.

How much is promised differs from claim to claim, so the relation has three switches: whether
requests are built in role (`honest`), whether the commit index is only raised over entries that
were compared (`strict`), and whether nodes take snapshots (`compacting`).

Main definitions:

* `RaftVibe.Setting` — the members of the cluster, and what is promised;
* `RaftVibe.NodeRel`, `RaftVibe.EnvelopeRel`, `RaftVibe.ReplyRel`, `RaftVibe.TaskRel` — the parts;
* `RaftVibe.Sim` — **the simulation relation**.

Main results:

* `RaftVibe.NodeRel.frame`, `RaftVibe.EnvelopeRel.frame`, `RaftVibe.ReplyRel.frame` — moves of other
  nodes keep the relation;
* `RaftVibe.Cluster.Initial.sim` — it holds of a freshly booted cluster.
-/

import RaftVibe.LogicalLog
import RaftVibe.RaftServerSpec
import RaftVibe.ReplicatedLogSafety

set_option relaxedAutoImplicit false
set_option autoImplicit false

namespace RaftVibe

open ReplicatedLog

/-- What is fixed along a run: the members of the cluster, and what is promised of its steps. -/
structure Setting where
  nodes : List ℕ
  nodup : nodes.Nodup
  /-- requests are built in role -/
  honest : Prop
  /-- the commit index is only raised over entries that were compared -/
  strict : Prop
  /-- nodes may take snapshots -/
  compacting : Prop
  honest_of_strict : strict → honest
  strict_of_compacting : compacting → strict

namespace Setting

/-- The majorities of the members. -/
def quorums (S : Setting) : QuorumSystem ℕ := .majority S.nodes.toFinset

/-- The replicated log with these quorums. -/
abbrev Reachable (S : Setting) (A : State ℕ LogEntry) : Prop :=
  ReplicatedLog.Reachable LogEntry.term S.quorums S.honest A

/-- Steps of node `n`. -/
abbrev Moves (S : Setting) (n : ℕ) (A A' : State ℕ LogEntry) : Prop :=
  ReplicatedLog.Moves LogEntry.term S.quorums S.honest n A A'

theorem inv {S : Setting} {A : State ℕ LogEntry} (h : S.Reachable A) :
    Inv LogEntry.term S.quorums A := Inv.of_reachable h

theorem kept {S : Setting} {A : State ℕ LogEntry} (h : S.Reachable A) (hh : S.honest) :
    Kept S.quorums A := Kept.of_reachable hh h

/-- Where nodes take snapshots, their storage keeps what it is told to. -/
def Stores (S : Setting) (σ : Type) [Storage σ] : Prop :=
  S.compacting → InfallibleStorage σ ∧ DurableSnapshots σ

end Setting

variable {σ μ : Type} {S : Setting} {A A' : State ℕ LogEntry} {n m : ℕ}

/-! ### Nodes -/

/-- A leader has won its term, its log is the leader's, and its peers have acknowledged at least
what it recorded. -/
structure Leads (S : Setting) (A : State ℕ LogEntry) (n : ℕ) (core : RaftCore σ μ) : Prop where
  leader : A.leader (A.term n) = some n
  log : A.log n = A.llog (A.term n)
  self : (A.log n).length ≤ A.acked n (A.term n)
  matched : S.honest → ∀ p, core.matchIndex.getD p 0 ≤ A.acked p (A.term n)

/-- A candidate stands for its term, or somebody else has won it, and it counted votes that were
cast for it. -/
structure Stands (S : Setting) (A : State ℕ LogEntry) (n : ℕ) (core : RaftCore σ μ) : Prop where
  running : A.running n ∨ ∃ d, d ≠ n ∧ A.leader (A.term n) = some d
  nodup : core.votesReceived.Nodup
  votes : ∀ v ∈ core.votesReceived, v ∈ S.nodes ∧ A.vote v (A.term n) = some n

/-- What a node has applied is committed. -/
structure Commits (S : Setting) (A : State ℕ LogEntry) (n : ℕ) (core : RaftCore σ μ) : Prop where
  applied : core.lastApplied = core.commitIndex
  snapshot_le : core.snapshotLastIndex ≤ core.commitIndex
  commit_le : core.commitIndex ≤ (A.log n).length
  committed : CommittedBy S.quorums A (A.term n) ((A.log n).take core.commitIndex)

/-- The core of node `n` in the replicated log. -/
structure NodeRel [Storage σ] (S : Setting) (A : State ℕ LogEntry) (n : ℕ)
    (core : RaftCore σ μ) : Prop where
  id_eq : core.id = n
  peers_nodup : core.peers.Nodup
  mem_peers : ∀ {p}, p ∈ core.peers ↔ p ∈ S.nodes ∧ p ≠ n
  term_eq : core.currentTerm = A.term n
  vote_eq : core.votedFor = A.vote n (A.term n)
  log : core.Represents (A.log n)
  next_pos : ∀ p, 1 ≤ core.nextIndex.getD p 1
  keys : ∀ p, p ∈ core.matchIndex → p ∈ core.peers
  leads : core.state = .leader → Leads S A n core
  stands : core.state = .candidate → Stands S A n core
  plain : ¬ S.compacting → core.snapshotThreshold = 0 ∧ core.snapshotLastIndex = 0
  commits : S.strict → Commits S A n core
  stored : S.compacting → ∀ snapshot, Storage.loadSnapshot core.storage = .ok (some snapshot) →
    snapshot.metadata = ⟨core.snapshotLastIndex, core.snapshotLastTerm⟩

theorem Leads.congr {core core' : RaftCore σ μ} (h : Leads S A n core)
    (hm : core'.matchIndex = core.matchIndex) : Leads S A n core' :=
  ⟨h.leader, h.log, h.self, by rw [hm]; exact h.matched⟩

theorem Stands.congr {core core' : RaftCore σ μ} (h : Stands S A n core)
    (hv : core'.votesReceived = core.votesReceived) : Stands S A n core' :=
  ⟨h.running, by rw [hv]; exact h.nodup, by rw [hv]; exact h.votes⟩

theorem Commits.congr {core core' : RaftCore σ μ} (h : Commits S A n core)
    (ha : core'.lastApplied = core.lastApplied) (hc : core'.commitIndex = core.commitIndex)
    (hs : core'.snapshotLastIndex = core.snapshotLastIndex) : Commits S A n core' :=
  ⟨by rw [ha, hc, h.applied], by rw [hs, hc]; exact h.snapshot_le,
    by rw [hc]; exact h.commit_le, by rw [hc]; exact h.committed⟩

theorem Leads.frame {core : RaftCore σ μ} (h : Leads S A m core) (hf : Frame n A A')
    (hm : m ≠ n) : Leads S A' m core where
  leader := by
    rw [hf.term m hm]
    exact hf.leader_some h.leader
  log := by rw [hf.term m hm, hf.log m hm, h.log, hf.llog_eq h.leader hm]
  self := by
    rw [hf.term m hm, hf.log m hm]
    exact h.self.trans (hf.acked_le _ _)
  matched hh p := by
    rw [hf.term m hm]
    exact (h.matched hh p).trans (hf.acked_le _ _)

theorem Stands.frame {core : RaftCore σ μ} (h : Stands S A m core) (hf : Frame n A A')
    (hm : m ≠ n) : Stands S A' m core where
  running := by
    rw [hf.term m hm, hf.running m hm]
    exact h.running.imp id fun ⟨d, hd, hl⟩ => ⟨d, hd, hf.leader_some hl⟩
  nodup := h.nodup
  votes v hv := by
    rw [hf.term m hm]
    exact ⟨(h.votes v hv).1, hf.vote_some (h.votes v hv).2⟩

theorem Commits.frame {core : RaftCore σ μ} (h : Commits S A m core) (hf : Frame n A A')
    (hm : m ≠ n) : Commits S A' m core where
  applied := h.applied
  snapshot_le := h.snapshot_le
  commit_le := by
    rw [hf.log m hm]
    exact h.commit_le
  committed := by
    rw [hf.term m hm, hf.log m hm]
    exact h.committed.frame hf

/-- **Moves of another node** leave what holds of a node. -/
theorem NodeRel.frame [Storage σ] {core : RaftCore σ μ} (h : NodeRel S A m core)
    (hf : Frame n A A') (hm : m ≠ n) : NodeRel S A' m core :=
  { h with
    term_eq := by rw [hf.term m hm, h.term_eq]
    vote_eq := by rw [hf.term m hm, hf.vote m hm, h.vote_eq]
    log := by
      rw [hf.log m hm]
      exact h.log
    leads := fun hl => (h.leads hl).frame hf hm
    stands := fun hc => (h.stands hc).frame hf hm
    commits := fun hs => (h.commits hs).frame hf hm }

/-! ### Requests -/

/-- The term sent along with a positive `prev_log_index` is `0`, which no log has there. -/
def AppendEntriesArgs.Bogus (args : AppendEntriesArgs) : Prop :=
  0 < args.prevLogIndex ∧ args.prevLogTerm = 0

/-- The request carries the log `s`, from `prev_log_index` on. -/
structure Carries (S : Setting) (A : State ℕ LogEntry) (args : AppendEntriesArgs)
    (s : List LogEntry) : Prop where
  indexed : Indexed 0 s
  length : s.length = args.prevLogIndex + args.entries.length
  entries : args.entries = s.drop args.prevLogIndex
  prevTerm : 0 < args.prevLogIndex →
    lastTerm LogEntry.term (s.take args.prevLogIndex) = args.prevLogTerm
  valid : Valid LogEntry.term A s
  le : ∀ e ∈ s, e.term ≤ args.term
  own : S.honest → s <+: A.llog args.term

/-- An AppendEntries request of node `source`. -/
structure AppendRel (S : Setting) (A : State ℕ LogEntry) (source : ℕ)
    (args : AppendEntriesArgs) : Prop where
  leaderId : args.leaderId = source
  leader : S.honest → A.leader args.term = some source
  carries : args.Bogus ∨ ∃ s, Carries S A args s
  announces : S.strict → ∃ ℓ, ℓ <+: A.llog args.term ∧ ℓ.length = args.leaderCommit ∧
    CommittedBy S.quorums A args.term ℓ

/-- A RequestVote request of node `source`. -/
structure VoteRel (A : State ℕ LogEntry) (source : ℕ) (args : RequestVoteArgs) : Prop where
  candidateId : args.candidateId = source
  term_le : args.term ≤ A.term source
  log : A.running source → A.term source = args.term →
    args.lastLogIndex = (A.log source).length ∧
      args.lastLogTerm = lastTerm LogEntry.term (A.log source)

/-- An InstallSnapshot request of node `source`: it stands for a committed prefix `s` of the log. -/
structure SnapshotRel (S : Setting) (A : State ℕ LogEntry) (source : ℕ)
    (args : InstallSnapshotArgs) : Prop where
  compacting : S.compacting
  leader : A.leader args.term = some source
  covers : ∃ s, s <+: A.llog args.term ∧ Indexed 0 s ∧ s.length = args.lastIncludedIndex ∧
    lastTerm LogEntry.term s = args.lastIncludedTerm ∧ CommittedBy S.quorums A args.term s

/-- A request of node `source`. -/
def RequestRel (S : Setting) (A : State ℕ LogEntry) (source : ℕ) : Request → Prop
  | .requestVote args => VoteRel A source args
  | .appendEntries args => AppendRel S A source args
  | .installSnapshot args => SnapshotRel S A source args

/-- A request on its way, between two members. -/
structure EnvelopeRel (S : Setting) (A : State ℕ LogEntry) (envelope : Envelope) : Prop where
  source : envelope.source ∈ S.nodes
  target : envelope.target ∈ S.nodes
  ne : envelope.source ≠ envelope.target
  request : RequestRel S A envelope.source envelope.request

/-- A positive reply of node `target` is a vote or an acknowledgement. -/
def ReplyRel (S : Setting) (A : State ℕ LogEntry) (target : ℕ) : Request → Reply → Prop
  | .requestVote args, .requestVote result =>
      result.voteGranted = true → A.vote target args.term = some args.candidateId
  | .appendEntries args, .appendEntries result => S.honest → result.success = true →
      ¬ args.Bogus ∧ args.prevLogIndex + args.entries.length ≤ A.acked target args.term
  | .installSnapshot args, .installSnapshot result =>
      ∀ t, result = .success t → args.lastIncludedIndex ≤ A.acked target args.term
  | _, _ => False

theorem Carries.frame {args : AppendEntriesArgs} {s : List LogEntry} (h : Carries S A args s)
    (hf : Frame n A A') {source : ℕ} (hl : S.honest → A.leader args.term = some source) :
    Carries S A' args s :=
  { h with
    valid := h.valid.mono hf
    own := fun hh => (h.own hh).trans (hf.llog (hl hh)) }

theorem AppendRel.frame {source : ℕ} {args : AppendEntriesArgs} (h : AppendRel S A source args)
    (hf : Frame n A A') : AppendRel S A' source args where
  leaderId := h.leaderId
  leader hh := hf.leader_some (h.leader hh)
  carries := h.carries.imp id fun ⟨s, hs⟩ => ⟨s, hs.frame hf h.leader⟩
  announces hs := by
    obtain ⟨ℓ, hℓ, hlen, hc⟩ := h.announces hs
    exact ⟨ℓ, hℓ.trans (hf.llog (h.leader (S.honest_of_strict hs))), hlen, hc.frame hf⟩

/-- A candidate whose log has changed does not stand for the old term any more. -/
theorem VoteRel.frame {source : ℕ} {args : RequestVoteArgs} (h : VoteRel A source args)
    (hf : Frame n A A') : VoteRel A' source args where
  candidateId := h.candidateId
  term_le := h.term_le.trans (hf.term_mono source)
  log hr ht := by
    by_cases hs : source = n
    · subst hs
      have hle := h.term_le
      rcases hf.running_self hr with hlt | ⟨hr, ht', hlog⟩
      · omega
      · rw [hlog]
        exact h.log hr (ht'.symm.trans ht)
    · rw [hf.running source hs] at hr
      rw [hf.term source hs] at ht
      rw [hf.log source hs]
      exact h.log hr ht

theorem SnapshotRel.frame {source : ℕ} {args : InstallSnapshotArgs}
    (h : SnapshotRel S A source args) (hf : Frame n A A') : SnapshotRel S A' source args where
  compacting := h.compacting
  leader := hf.leader_some h.leader
  covers := by
    obtain ⟨s, hs, hi, hlen, ht, hc⟩ := h.covers
    exact ⟨s, hs.trans (hf.llog h.leader), hi, hlen, ht, hc.frame hf⟩

theorem RequestRel.frame {source : ℕ} {request : Request} (h : RequestRel S A source request)
    (hf : Frame n A A') : RequestRel S A' source request := by
  cases request with
  | requestVote args => exact VoteRel.frame h hf
  | appendEntries args => exact AppendRel.frame h hf
  | installSnapshot args => exact SnapshotRel.frame h hf

theorem EnvelopeRel.frame {envelope : Envelope} (h : EnvelopeRel S A envelope)
    (hf : Frame n A A') : EnvelopeRel S A' envelope :=
  { h with request := h.request.frame hf }

theorem ReplyRel.frame {target : ℕ} {request : Request} {reply : Reply}
    (h : ReplyRel S A target request reply) (hf : Frame n A A') :
    ReplyRel S A' target request reply := by
  cases request <;> cases reply <;> try exact h
  · exact fun hg => hf.vote_some (h hg)
  · exact fun hh hs => ⟨(h hh hs).1, (h hh hs).2.trans (hf.acked_le _ _)⟩
  · exact fun t ht => (h t ht).trans (hf.acked_le _ _)

/-! ### Event loops -/

/-- The event loop of node `n`, when the given requests have been sent: it waits for answers to its
own requests, of the term in which it still holds a role, and a submitted entry is in the requests
of its round. -/
structure TaskRel (S : Setting) (A : State ℕ LogEntry) (requests : List Envelope) (n : ℕ)
    (s : Server σ μ) : Prop where
  waiting : ∀ envelope ∈ s.task.waiting, envelope ∈ requests ∧ envelope.source = n
  waiting_term : s.core.state ≠ .follower →
    ∀ envelope ∈ s.task.waiting, envelope.request.term = s.core.currentTerm
  submitted : ∀ command i, s.task = .submitted command i → S.honest → s.core.state = .leader →
    i ≤ (A.llog s.core.currentTerm).length
  replicating : ∀ command i waiting, s.task = .replicating command i waiting → S.honest →
    ∀ envelope ∈ waiting, ∀ args, envelope.request = .appendEntries args → ¬ args.Bogus →
      i ≤ args.prevLogIndex + args.entries.length

/-- A task that waits for nobody. -/
theorem TaskRel.of_quiet {requests : List Envelope} {s : Server σ μ} (hw : s.task.waiting = [])
    (hs : ∀ command i, s.task ≠ .submitted command i) : TaskRel S A requests n s where
  waiting := by simp [hw]
  waiting_term := by simp [hw]
  submitted command i ht := absurd ht (hs command i)
  replicating command i waiting ht := by
    obtain rfl : waiting = [] := by rwa [ht] at hw
    simp

/-- A task that has gone on within its round: it waits for no more answers. -/
structure Task.Within (task' task : Task) : Prop where
  waiting : task'.waiting ⊆ task.waiting
  submitted : ∀ command i, task' = .submitted command i → task = .submitted command i
  replicating : ∀ command i w, task' = .replicating command i w →
    ∃ w', task = .replicating command i w'

theorem Task.Within.refl (task : Task) : task.Within task :=
  ⟨List.Subset.refl _, fun _ _ h => h, fun _ _ w h => ⟨w, h⟩⟩

theorem Task.forget_within (task : Task) (envelope : Envelope) :
    (task.forget envelope).Within task := by
  refine ⟨?_, fun command i h => forget_eq_submitted.1 h, fun command i w h => ?_⟩
  · rw [Task.waiting_forget]
    exact List.erase_subset
  · cases task <;> simp [Task.forget] at h
    obtain ⟨rfl, rfl, -⟩ := h
    exact ⟨_, rfl⟩

/-- Moves keep what holds of a task, if the node has lost no role in between. -/
theorem TaskRel.frame [Storage σ] {requests requests' : List Envelope} {s s' : Server σ μ}
    (h : TaskRel S A requests m s) (hn : NodeRel S A m s.core) (hf : Frame n A A')
    (hsub : requests ⊆ requests') (ht : s'.task.Within s.task)
    (hrole : s'.core.state ≠ .follower → s.core.SameRole s'.core) :
    TaskRel S A' requests' m s' where
  waiting envelope he :=
    ⟨hsub (h.waiting envelope (ht.waiting he)).1, (h.waiting envelope (ht.waiting he)).2⟩
  waiting_term hs envelope he := by
    rw [(hrole hs).2]
    exact h.waiting_term (by rwa [← (hrole hs).1]) envelope (ht.waiting he)
  submitted command i hi hh hl := by
    have hsame := hrole (by simp [hl])
    have hl' : s.core.state = .leader := hsame.1.symm.trans hl
    have hlead := (hn.leads hl').leader
    rw [← hn.term_eq] at hlead
    rw [hsame.2]
    exact (h.submitted command i (ht.submitted command i hi) hh hl').trans
      (hf.llog hlead).length_le
  replicating command i w hi hh envelope he := by
    obtain ⟨w', hw'⟩ := ht.replicating command i w hi
    have hsub := ht.waiting
    rw [hi, hw'] at hsub
    exact h.replicating command i w' hw' hh envelope (hsub he)

/-! ### The cluster -/

/-- **The simulation relation**: the state `A` of the replicated log records what the nodes of the
cluster `C` have done. -/
structure Sim [Storage σ] (S : Setting) (C : Cluster σ μ) (A : State ℕ LogEntry) : Prop where
  nodes : C.nodes = S.nodes
  reachable : S.Reachable A
  node : ∀ n ∈ S.nodes, NodeRel S A n (C.core n)
  task : ∀ n ∈ S.nodes, TaskRel S A C.requests n (C.servers n)
  request : ∀ envelope ∈ C.requests, EnvelopeRel S A envelope
  reply : ∀ r ∈ C.replies, ReplyRel S A r.1.target r.1.request r.2

variable [Storage σ] [Snapshotable μ]

omit [Storage σ] [Snapshotable μ] in
theorem RaftCore.fresh_represents (id : ℕ) (peers : List ℕ) (storage : σ) (m : μ) :
    (RaftCore.fresh id peers storage m).Represents [] :=
  ⟨Indexed.nil, le_rfl, rfl, rfl⟩

/-- **A freshly booted cluster**, with snapshots disabled unless the setting allows them. -/
theorem Cluster.Initial.sim {C : Cluster σ μ} (h : C.Initial) (hnodes : C.nodes = S.nodes)
    (hplain : ¬ S.compacting → ∀ n ∈ C.nodes, (C.core n).snapshotThreshold = 0) :
    Sim S C (State.init ℕ LogEntry) where
  nodes := hnodes
  reachable := .refl
  node n hn := by
    rw [← hnodes] at hn
    have hthreshold : ¬ S.compacting → (C.core n).snapshotThreshold = 0 := fun hc => hplain hc n hn
    obtain ⟨peers, storage, m, threshold, core, hnew, heq, hterm, hvote, hlog, hsnap, hnodup,
      hmem⟩ := h.boot n hn
    rw [RaftCore.new_eq_fresh hterm hvote hlog hsnap, Except.ok.injEq] at hnew
    rw [Cluster.core, heq, ← hnew] at hthreshold ⊢
    refine {
      id_eq := rfl
      peers_nodup := hnodup
      mem_peers := fun {p} => hnodes ▸ hmem p
      term_eq := rfl
      vote_eq := rfl
      log := (RaftCore.fresh_represents n peers storage m).congr rfl rfl rfl
      next_pos := fun p => le_rfl
      keys := fun p hp => absurd hp (AList.notMem_empty p)
      leads := fun hl => absurd hl (by simp [RaftCore.setSnapshotThreshold, RaftCore.fresh])
      stands := fun hc => absurd hc (by simp [RaftCore.setSnapshotThreshold, RaftCore.fresh])
      plain := fun hc => ⟨hthreshold hc, rfl⟩
      commits := fun _ => ⟨rfl, le_rfl, le_rfl, Or.inl rfl⟩
      stored := fun _ snapshot hs => ?_ }
    exact absurd (hsnap.symm.trans hs) (by simp)
  task n hn := by
    rw [← hnodes] at hn
    exact .of_quiet (by rw [h.idle n hn]; rfl) (by simp [h.idle n hn])
  request := by simp [h.requests]
  reply := by simp [h.replies]

end RaftVibe
