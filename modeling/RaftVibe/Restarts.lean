/-
**Nodes that crash and come back.**

A node that crashes while nobody holds its lock is loaded again from what its storage holds: `main`
makes a new core of the stored term, vote, log and snapshot, gives it the snapshot threshold, and
starts an idle event loop.  Everything else is lost: the role, the commit index, the bookkeeping of a
leader, the answers that were still to come.  For the replicated log nothing has happened, as long as
the storage holds what the node had — which every call sees to, except for the two step-downs that
change the term in memory only.

These are crashes between two calls.  In the middle of one the storage may hold less, or a snapshot and
the entries below it, which shifts the log; the moments of a call are in `Durability` and
`CrashRecovery`.

Main definitions:

* `RaftVibe.RaftCore.Persists` — the storage holds the term and the vote of the node;
* `RaftVibe.Cluster.restart`, `RaftVibe.Cluster.stepOrRestart` — a node comes back;
* `RaftVibe.Endures` — the relation to the replicated log, and what the storages hold.

Main results:

* `RaftVibe.Op.step_persists` — **one call keeps the stored vote**;
* `RaftVibe.Endures.restart` — **a restart is no move of the replicated log**;
* `RaftVibe.Cluster.run_leader_unique`, `RaftVibe.Cluster.run_logs_match`,
  `RaftVibe.Cluster.run_committed_agree`, `RaftVibe.Cluster.run_committed_kept` — **the safety of the
  cluster**, over runs with snapshots and crashes.
-/

import RaftVibe.Durability
import RaftVibe.NodeCalls

set_option relaxedAutoImplicit false
set_option autoImplicit false

namespace RaftVibe

open ReplicatedLog Runs

variable {σ μ : Type} [Storage σ]

/-! ### The stored vote -/

namespace RaftCore

variable {core core' : RaftCore σ μ}

/-- Loading from the storage gives the term and the vote of the node. -/
def Persists (core : RaftCore σ μ) : Prop :=
  ∃ c : StorageContents, Holds core.storage c ∧ c.term = core.currentTerm ∧
    c.votedFor = core.votedFor

theorem Persists.congr (h : core.Persists) (hs : core'.storage = core.storage)
    (ht : core'.currentTerm = core.currentTerm) (hv : core'.votedFor = core.votedFor) :
    core'.Persists := by
  obtain ⟨c, hc, hterm, hvote⟩ := h
  exact ⟨c, hs ▸ hc, hterm.trans ht.symm, hvote.trans hv.symm⟩

variable [LawfulStorage σ]

theorem setTerm_persists (h : core.Persists) {term : ℕ} (hs : core.setTerm term = .ok core') :
    core'.Persists := by
  obtain ⟨c, hc, -, hvote⟩ := h
  obtain ⟨-, rfl⟩ := setTerm_ok.1 hs
  exact ⟨_, LawfulStorage.saveTerm term hc, rfl, hvote⟩

theorem setVotedFor_persists (h : core.Persists) {votedFor : Option ℕ}
    (hs : core.setVotedFor votedFor = .ok core') : core'.Persists := by
  obtain ⟨c, hc, hterm, -⟩ := h
  obtain ⟨-, rfl⟩ := setVotedFor_ok.1 hs
  exact ⟨_, LawfulStorage.saveVotedFor votedFor hc, hterm, rfl⟩

theorem persistLogEntry_persists (h : core.Persists) {entry : LogEntry}
    (hp : core.persistLogEntry entry = .ok core') : core'.Persists := by
  obtain ⟨c, hc, hterm, hvote⟩ := h
  obtain ⟨-, rfl⟩ := persistLogEntry_ok.1 hp
  exact ⟨_, LawfulStorage.appendLogEntries [entry] hc, hterm, hvote⟩

theorem persistTruncateLog_persists (h : core.Persists) {fromIndex : ℕ}
    (hp : core.persistTruncateLog fromIndex = .ok core') : core'.Persists := by
  obtain ⟨c, hc, hterm, hvote⟩ := h
  simp only [persistTruncateLog] at hp
  split at hp
  · simp only [Except.bind_eq_ok, expectSave_ok, Except.pure_eq_ok] at hp
    obtain ⟨_, ⟨-, rfl⟩, rfl⟩ := hp
    exact ⟨_, LawfulStorage.truncateLog fromIndex hc, hterm, hvote⟩
  · obtain rfl := Except.ok.inj hp
    exact ⟨c, hc, hterm, hvote⟩

theorem observeTerm_persists (h : core.Persists) {term : ℕ}
    (ho : core.observeTerm term = .ok core') : core'.Persists := by
  unfold observeTerm at ho
  split at ho
  · simp only [updateTerm, Except.bind_eq_ok, Except.pure_eq_ok] at ho
    obtain ⟨core₂, ⟨core₁, h₁, h₂⟩, rfl⟩ := ho
    exact (setVotedFor_persists (setTerm_persists h h₁) h₂).congr rfl rfl rfl
  · obtain rfl := Except.ok.inj ho
    exact h

theorem startElection_persists (h : core.Persists) (hs : core.startElection = .ok core') :
    core'.Persists := by
  simp only [startElection, Except.bind_eq_ok, Except.pure_eq_ok] at hs
  obtain ⟨core₁, h₁, core₂, h₂, rfl⟩ := hs
  refine (setVotedFor_persists ?_ h₂).congr rfl rfl rfl
  exact (setTerm_persists h h₁).congr rfl rfl rfl

theorem becomeLeader_persists (h : core.Persists) (hb : core.becomeLeader = .ok core') :
    core'.Persists := by
  simp only [becomeLeader] at hb
  refine persistLogEntry_persists ?_ hb
  exact h.congr rfl rfl rfl

theorem appendLogEntry_persists (h : core.Persists) {command : String} {entry : Option LogEntry}
    (ha : core.appendLogEntry command = .ok (core', entry)) : core'.Persists := by
  unfold appendLogEntry at ha
  split at ha
  · simp only [Except.ok.injEq, Prod.mk.injEq] at ha
    exact ha.1 ▸ h
  · simp only [Except.bind_eq_ok, Except.pure_eq_ok, Prod.mk.injEq] at ha
    obtain ⟨_, hp, rfl, -⟩ := ha
    exact persistLogEntry_persists h hp

theorem applyEntries_persists {entries : List LogEntry} (h : core.Persists)
    (ha : applyEntries entries core = .ok core') : core'.Persists := by
  induction entries generalizing core with
  | nil =>
      obtain rfl := Except.ok.inj ha
      exact h
  | cons entry rest ih =>
      rw [applyEntries] at ha
      split at ha
      · exact ih h ha
      · simp only at ha
        split at ha
        · split at ha
          · simp only [Except.bind_eq_ok] at ha
            obtain ⟨core₁, h₁, core₂, h₂, h₃⟩ := ha
            exact ih (persistLogEntry_persists (persistTruncateLog_persists h h₁) h₂) h₃
          · exact ih h ha
        · simp only [Except.bind_eq_ok] at ha
          obtain ⟨core₁, h₁, h₂⟩ := ha
          exact ih (persistLogEntry_persists h h₁) h₂

variable [Snapshotable μ]

theorem Compacted.persists (hc : core.Compacted core') (h : core.Persists) : core'.Persists := by
  obtain ⟨c, hholds, hterm, hvote⟩ := h
  obtain ⟨entry, data, -, -, -, rfl⟩ := hc
  exact ⟨_, LawfulStorage.compactLog (core.lastApplied + 1)
    (LawfulStorage.saveSnapshot ⟨⟨core.lastApplied, entry.term⟩, data⟩ hholds), hterm, hvote⟩

theorem applyCommittedEntries_persists (h : core.Persists) {results : List (ℕ × ApplyResult)}
    (ha : core.applyCommittedEntries = .ok (core', results)) : core'.Persists := by
  obtain ⟨es, -, -, -, rfl⟩ := applyCommittedEntries_ok ha
  have happlied : Persists { core with
      lastApplied := max core.lastApplied core.commitIndex
      stateMachine := foldCommands core.stateMachine (es.map LogEntry.command) } :=
    h.congr rfl rfl rfl
  rcases autoSnapshot_cases { core with
      lastApplied := max core.lastApplied core.commitIndex
      stateMachine := foldCommands core.stateMachine (es.map LogEntry.command) } with heq | hc
  · rwa [heq]
  · exact hc.persists happlied

theorem handleAppendEntries_persists (h : core.Persists) {args : AppendEntriesArgs}
    {out : HandleAppendEntriesOutput} (ha : core.handleAppendEntries args = .ok (core', out)) :
    core'.Persists := by
  obtain ⟨core₁, h₁, ⟨-, rfl, -, -⟩ | ⟨-, core₂, rfl, hor⟩⟩ := handleAppendEntries_ok ha
  · exact observeTerm_persists h h₁
  · have hseen : Persists { core₁ with state := .follower, currentLeader := some args.leaderId } :=
      (observeTerm_persists h h₁).congr rfl rfl rfl
    rcases hor with ⟨rfl, -, -⟩ | ⟨-, hacc, -, -⟩
    · exact hseen
    · simp only [acceptEntries, Except.bind_eq_ok] at hacc
      obtain ⟨core₃, h₃, hacc⟩ := hacc
      have htaken := applyEntries_persists hseen h₃
      split at hacc
      · simp only [Except.bind_eq_ok, Except.pure_eq_ok, Prod.exists] at hacc
        obtain ⟨_, results, happly, rfl⟩ := hacc
        refine applyCommittedEntries_persists ?_ happly
        exact htaken.congr rfl rfl rfl
      · obtain rfl := Except.pure_eq_ok.1 hacc
        exact htaken

theorem handleInstallSnapshot_persists (h : core.Persists) {args : InstallSnapshotArgs}
    {result : InstallSnapshotResult}
    (hi : core.handleInstallSnapshot args = .ok (core', result)) : core'.Persists := by
  rcases handleInstallSnapshot_ok hi with ⟨-, rfl, -⟩ | ⟨core₁, core₂, h₁, -, h₂, hor⟩
  · exact h
  · have hseen : core₂.Persists := by
      rw [h₂]
      exact (observeTerm_persists h h₁).congr rfl rfl rfl
    obtain ⟨c, hc, hterm, hvote⟩ := hseen
    have hsaved := LawfulStorage.saveSnapshot
      ⟨⟨args.lastIncludedIndex, args.lastIncludedTerm⟩, args.data⟩ hc
    rcases hor with ⟨s, reason, rfl, -, rfl | ⟨-, rfl⟩⟩ | ⟨-, s, m, hsave, -, rfl, -⟩
    · exact ⟨c, hc, hterm, hvote⟩
    · exact ⟨_, hsaved, hterm, hvote⟩
    · rw [hsave] at hsaved
      exact ⟨_, LawfulStorage.compactLog (args.lastIncludedIndex + 1) hsaved, hterm, hvote⟩

omit [Snapshotable μ] in
theorem handleRequestVote_persists (h : core.Persists) {args : RequestVoteArgs}
    {result : RequestVoteResult} (hv : core.handleRequestVote args = .ok (core', result)) :
    core'.Persists := by
  rcases handleRequestVote_ok hv with ⟨-, rfl, -⟩ | ⟨core₁, h₁, -, ⟨rfl, -⟩ | ⟨-, -, hset, -⟩⟩
  · exact h
  · exact observeTerm_persists h h₁
  · exact setVotedFor_persists (observeTerm_persists h h₁) hset

omit [Snapshotable μ] in
theorem handleRequestVoteResult_persists (h : core.Persists) {peerId : ℕ}
    {result : RequestVoteResult} {won : Bool}
    (hv : core.handleRequestVoteResult peerId result = .ok (core', won)) : core'.Persists := by
  obtain ⟨core₁, h₁, ⟨-, rfl, -⟩ | ⟨-, core₂, h₂, hor⟩⟩ := handleRequestVoteResult_ok hv
  · exact observeTerm_persists h h₁
  · obtain ⟨votes, heq, -⟩ := countVote_eq core₁ peerId result
    have hcounted : core₂.Persists := by
      rw [h₂, heq]
      exact (observeTerm_persists h h₁).congr rfl rfl rfl
    rcases hor with ⟨rfl, -⟩ | ⟨-, hb, -⟩
    · exact hcounted
    · exact becomeLeader_persists hcounted hb

theorem handleAppendEntriesResult_persists (h : core.Persists) {peerId entryIndex : ℕ}
    {result : AppendEntriesResult} {commit : Option ℕ} {results : List (ℕ × ApplyResult)}
    (hr : core.handleAppendEntriesResult peerId entryIndex result = .ok (core', commit, results)) :
    core'.Persists := by
  obtain ⟨core₁, h₁, hor⟩ := handleAppendEntriesResult_ok hr
  rcases hor with ⟨-, rfl, -⟩ | ⟨-, core₂, h₂, hor⟩
  · exact observeTerm_persists h h₁
  · obtain ⟨next, matchIndex, heq, -, -⟩ := recordAppendResult_eq core₁ peerId entryIndex result
    have hrecorded : core₂.Persists := by
      rw [h₂, heq]
      exact (observeTerm_persists h h₁).congr rfl rfl rfl
    rcases hor with ⟨rfl, -⟩ | ⟨-, -, -, -, -, happly⟩
    · exact hrecorded
    · refine applyCommittedEntries_persists ?_ happly
      exact hrecorded.congr rfl rfl rfl

end RaftCore

variable [Snapshotable μ]

/-- **One call keeps the stored vote**, unless it adopts a term in memory only. -/
theorem Op.step_persists [LawfulStorage σ] {core core' : RaftCore σ μ} (h : core.Persists) {op : Op}
    (hdown : ¬ op.StepsDownInMemory core) (hs : op.step core = some core') : core'.Persists := by
  have hstay {term : ℕ} (hle : ¬ core.currentTerm < term) (hsd : core.StepsDown term core') :
      core'.Persists := by
    rcases hsd with ⟨hlt, -⟩ | ⟨-, rfl⟩
    · exact absurd hlt hle
    · exact h
  cases ran_of_step hs with
  | requestVote hv => exact RaftCore.handleRequestVote_persists h hv
  | appendEntries ha => exact RaftCore.handleAppendEntries_persists h ha
  | installSnapshot hi => exact RaftCore.handleInstallSnapshot_persists h hi
  | startElection he => exact RaftCore.startElection_persists h he
  | becomeLeader hb => exact RaftCore.becomeLeader_persists h hb
  | appendLogEntry ha => exact RaftCore.appendLogEntry_persists h ha
  | applyCommittedEntries ha => exact RaftCore.applyCommittedEntries_persists h ha
  | takeSnapshot =>
      rcases RaftCore.takeSnapshot_cases core with heq | hc
      · rwa [heq]
      · exact hc.persists h
  | requestVoteResult hv => exact RaftCore.handleRequestVoteResult_persists h hv
  | appendEntriesResult hr => exact RaftCore.handleAppendEntriesResult_persists h hr
  | installSnapshotSuccess => exact h.congr rfl rfl rfl
  | installSnapshotFailed hsd => exact hstay hdown hsd
  | confirmResult hsd => exact hstay hdown hsd

/-! ### What a restart loads -/

/-- **A restart loses nothing that counts**: the storage holds the log, the snapshot boundary, the
term and the vote. -/
structure RaftCore.Recoverable (core : RaftCore σ μ) : Prop where
  synced : core.Synced
  persists : core.Persists

namespace RaftCore

variable {core core' : RaftCore σ μ}

/-- **The node that comes back** has the log, the snapshot boundary, the term and the vote it had;
the rest is as on the first day. -/
theorem Recoverable.new_eq (h : core.Recoverable) {m₀ : μ}
    (hnew : RaftCore.new core.id core.peers core.storage m₀ = .ok core') :
    ∃ m, core' = { fresh core.id core.peers core.storage m with
      currentTerm := core.currentTerm
      votedFor := core.votedFor
      log := core.log
      snapshotLastIndex := core.snapshotLastIndex
      snapshotLastTerm := core.snapshotLastTerm
      commitIndex := core.snapshotLastIndex
      lastApplied := core.snapshotLastIndex } := by
  obtain ⟨snapshot, ⟨c, ⟨-, -, hlog, hsnap⟩, hsame, rfl⟩, hb⟩ := h.synced.stored
  obtain ⟨c', ⟨hterm, hvote, -, -⟩, hterm', hvote'⟩ := h.persists
  rw [hsame] at hlog
  rw [hterm'] at hterm
  rw [hvote'] at hvote
  simp only [RaftCore.new, hterm, hvote, hlog, hsnap, expectLoad, Except.bind_eq_ok,
    Except.ok.injEq, exists_eq_left', Except.pure_eq_ok] at hnew
  obtain ⟨m, -, rfl⟩ := hnew
  refine ⟨m, ?_⟩
  cases hc : c.snapshot with
  | none =>
      rw [hc] at hb
      obtain ⟨h₁, h₂⟩ := Prod.mk.inj hb
      simp only [← h₁, ← h₂]
      rfl
  | some s =>
      rw [hc] at hb
      obtain ⟨h₁, h₂⟩ := Prod.mk.inj hb
      simp only [← h₁, ← h₂]
      rfl

/-- It can crash again. -/
theorem Recoverable.restart (h : core.Recoverable) {m₀ : μ} {threshold : ℕ}
    (hnew : RaftCore.new core.id core.peers core.storage m₀ = .ok core') :
    (core'.setSnapshotThreshold threshold).Recoverable := by
  obtain ⟨m, rfl⟩ := h.new_eq hnew
  exact ⟨h.synced.congr rfl rfl rfl fun _ hst => hst.congr rfl rfl, h.persists.congr rfl rfl rfl⟩

end RaftCore

/-- **One call keeps a node recoverable.** -/
theorem Op.step_recoverable [LawfulStorage σ] {core core' : RaftCore σ μ} (h : core.Recoverable)
    {op : Op} (hfair : op.Fair core) (hdown : ¬ op.StepsDownInMemory core)
    (hs : op.step core = some core') : core'.Recoverable :=
  ⟨Op.step_mirrored h.synced hfair.contiguous hfair.not_cutsByPosition hs,
    Op.step_persists h.persists hdown hs⟩

/-! ### The cluster with restarts -/

/-- An acquisition of a lock, or a restart of a node. -/
inductive RestartAction
  | act (action : Action)
  | restart (node : ℕ)

namespace Cluster

/-- **A node comes back** that has crashed between two calls, with the threshold it had and a state
machine as `main` provides it.  Its event loop is idle, and nobody listens to the answers to its old
requests. -/
def restart (m₀ : μ) (C : Cluster σ μ) (n : ℕ) : Option (Cluster σ μ) :=
  if n ∈ C.nodes then
    match RaftCore.new (C.core n).id (C.core n).peers (C.core n).storage m₀ with
    | .ok core =>
        some { C with
          servers := Function.update C.servers n
            ⟨core.setSnapshotThreshold (C.core n).snapshotThreshold, .idle, (C.servers n).rounds⟩ }
    | .error _ => none
  else none

/-- **One step of a cluster whose nodes may crash** while nobody holds their lock. -/
def stepOrRestart (m₀ : μ) (C : Cluster σ μ) : RestartAction → Option (Cluster σ μ)
  | .act action => C.step action
  | .restart n => C.restart m₀ n

/-- The call that the action makes adopts a term in memory only. -/
def StepsDownInMemory (C : Cluster σ μ) (action : Action) : Prop :=
  match C.call action with
  | some op => op.StepsDownInMemory (C.core action.node)
  | none => False

instance (C : Cluster σ μ) (action : Action) : Decidable (C.StepsDownInMemory action) := by
  unfold StepsDownInMemory
  split <;> infer_instance

/-- What is to be excluded: that a node leaves the log of its leader, or adopts a term in memory
only. -/
def Strays (C : Cluster σ μ) : RestartAction → Prop
  | .act action => C.Diverges action ∨ C.StepsDownInMemory action
  | .restart _ => False

instance (C : Cluster σ μ) (action : RestartAction) : Decidable (C.Strays action) := by
  unfold Strays
  split <;> infer_instance

/-- The node that comes back, and the others. -/
theorem restart_eq_some {m₀ : μ} {C C' : Cluster σ μ} {n : ℕ} (h : C.restart m₀ n = some C') :
    n ∈ C.nodes ∧ ∃ core, RaftCore.new (C.core n).id (C.core n).peers (C.core n).storage m₀ =
      .ok core ∧ C' = { C with
        servers := Function.update C.servers n
          ⟨core.setSnapshotThreshold (C.core n).snapshotThreshold, .idle,
            (C.servers n).rounds⟩ } := by
  simp only [restart] at h
  split at h
  · rename_i hn
    split at h
    · rename_i core hnew
      exact ⟨hn, core, hnew, (Option.some.inj h).symm⟩
    · cases h
  · cases h

end Cluster

/-! ### Restarts and the replicated log -/

section Relation

variable {S : Setting} {A A' : State ℕ LogEntry} {C C' : Cluster σ μ} {n : ℕ}

/-- **A node that comes back** is still in the relation: it is a follower, and has forgotten how far
it may apply its log beyond the snapshot. -/
theorem NodeRel.restart {core core' : RaftCore σ μ} (h : NodeRel S A n core)
    (hrec : core.Recoverable) {m₀ : μ}
    (hnew : RaftCore.new core.id core.peers core.storage m₀ = .ok core') :
    NodeRel S A n (core'.setSnapshotThreshold core.snapshotThreshold) := by
  obtain ⟨m, rfl⟩ := hrec.new_eq hnew
  refine {
    id_eq := h.id_eq
    peers_nodup := h.peers_nodup
    mem_peers := h.mem_peers
    term_eq := h.term_eq
    vote_eq := h.vote_eq
    log := h.log.congr rfl rfl rfl
    next_pos := fun p => le_rfl
    keys := fun p hp => absurd hp (AList.notMem_empty p)
    leads := fun hl => absurd hl (by simp [RaftCore.setSnapshotThreshold, RaftCore.fresh])
    stands := fun hc => absurd hc (by simp [RaftCore.setSnapshotThreshold, RaftCore.fresh])
    plain := h.plain
    commits := fun hs => ?_
    stored := h.stored }
  -- the snapshot stands for a prefix of what was committed
  have hc := h.commits hs
  have hle := hc.snapshot_le
  refine ⟨rfl, le_rfl, hle.trans hc.commit_le, hc.committed.shorten ?_⟩
  have htake : (A.log n).take core.snapshotLastIndex =
      ((A.log n).take core.commitIndex).take core.snapshotLastIndex := by
    rw [List.take_take, min_eq_left hle]
  exact htake ▸ List.take_prefix _ _

/-- **The relation to the replicated log**, in a cluster whose nodes can all crash. -/
structure Endures (S : Setting) (C : Cluster σ μ) (A : State ℕ LogEntry) : Prop where
  follows : Follows S C A
  recoverable : ∀ n ∈ S.nodes, (C.core n).Recoverable

/-- A freshly booted node, with nothing in its storage, is recoverable. -/
theorem Cluster.Initial.endures (h : C.Initial) (hnodes : C.nodes = S.nodes)
    (hplain : ¬ S.compacting → ∀ n ∈ C.nodes, (C.core n).snapshotThreshold = 0) :
    Endures S C (State.init ℕ LogEntry) where
  follows := h.follows hnodes hplain
  recoverable n hn := by
    obtain ⟨peers, storage, m, threshold, core, hnew, heq, hterm, hvote, hlog, hsnap, -⟩ :=
      h.boot n (hnodes ▸ hn)
    have hholds : Holds storage StorageContents.empty := ⟨hterm, hvote, hlog, hsnap⟩
    rw [RaftCore.new_eq_fresh hterm hvote hlog hsnap, Except.ok.injEq] at hnew
    rw [Cluster.core, heq, ← hnew]
    exact ⟨⟨⟨none, ⟨_, hholds, rfl, rfl⟩, rfl⟩, fun _ => Indexed.nil⟩, _, hholds, rfl, rfl⟩

/-- A step of the cluster keeps the nodes recoverable. -/
theorem Endures.step [LawfulStorage σ] (h : Endures S C A) (hst : S.Stores σ) (hstrict : S.strict)
    {action : Action} (hallow : S.Allows C action) (hdiv : ¬ C.Diverges action)
    (hdown : ¬ C.StepsDownInMemory action) (hs : C.step action = some C') :
    ∃ A', S.Moves action.node A A' ∧ Endures S C' A' := by
  obtain ⟨A', hm, h'⟩ := h.follows.step hst hallow hs
  refine ⟨A', hm, h', fun m hmem => ?_⟩
  obtain ⟨hafter, hothers⟩ := Cluster.step_after hs
  by_cases hmn : m = action.node
  · subst hmn
    have hrec := h.recoverable _ hmem
    cases hcall : C.call action with
    | none =>
        rw [hcall] at hafter
        exact (show C'.core action.node = C.core action.node from hafter) ▸ hrec
    | some op =>
        rw [hcall] at hafter
        have hfair := h.follows.sim.fair hstrict h.follows.inLog (Cluster.offers_of_step hs) hdiv
          hcall
        simp only [Cluster.StepsDownInMemory, hcall] at hdown
        exact Op.step_recoverable hrec hfair.2 hdown hafter
  · rw [Cluster.core, hothers m hmn]
    exact h.recoverable m hmem

/-- **A restart is no move of the replicated log.** -/
theorem Endures.restart {m₀ : μ} (h : Endures S C A) (hs : C.restart m₀ n = some C') :
    Endures S C' A := by
  obtain ⟨hn, core, hnew, rfl⟩ := Cluster.restart_eq_some hs
  have hsim := h.follows.sim
  rw [hsim.nodes] at hn
  -- what holds of the node that comes back, and of the others, holds of all
  have hall {P : ℕ → Server σ μ → Prop}
      (hself : P n ⟨core.setSnapshotThreshold (C.core n).snapshotThreshold, .idle,
        (C.servers n).rounds⟩) (hothers : ∀ m ∈ S.nodes, P m (C.servers m)) :
      ∀ m ∈ S.nodes, P m (Function.update C.servers n
        ⟨core.setSnapshotThreshold (C.core n).snapshotThreshold, .idle, (C.servers n).rounds⟩ m) := by
    intro m hm
    by_cases hmn : m = n
    · subst hmn
      rwa [Function.update_self]
    · rw [Function.update_of_ne hmn]
      exact hothers m hm
  have hrec := h.recoverable n hn
  exact {
    follows := {
      sim := {
        nodes := hsim.nodes
        reachable := hsim.reachable
        node := hall (P := fun m s => NodeRel S A m s.core) ((hsim.node n hn).restart hrec hnew)
          hsim.node
        task := hall (P := fun m s => TaskRel S A C.requests m s) (.of_quiet rfl (by simp))
          hsim.task
        request := hsim.request
        reply := hsim.reply }
      inLog := hall (P := fun _ s => s.InLog) (fun _ i hi => absurd hi List.not_mem_nil)
        h.follows.inLog }
    recoverable := hall (P := fun _ s => s.core.Recoverable) (hrec.restart hnew) h.recoverable }

/-- The node that an action or a restart is about. -/
def RestartAction.node : RestartAction → ℕ
  | act action => action.node
  | restart n => n

/-- **One step**, with or without a crash, is a sequence of moves of its node. -/
theorem Endures.stepOrRestart [LawfulStorage σ] [DurableSnapshots σ] {m₀ : μ} {nodes : List ℕ}
    {hnodes : nodes.Nodup} (h : Endures (.full nodes hnodes) C A)
    {action : RestartAction} (hok : ¬ C.Strays action) (hs : C.stepOrRestart m₀ action = some C') :
    ∃ A', (Setting.full nodes hnodes).Moves action.node A A' ∧
      Endures (.full nodes hnodes) C' A' := by
  cases action with
  | act action =>
      obtain ⟨hdiv, hdown⟩ := not_or.1 hok
      exact h.step (fun _ => ⟨inferInstance, inferInstance⟩) trivial (Cluster.allows_full hdiv) hdiv
        hdown hs
  | restart n => exact ⟨A, .refl n A, h.restart hs⟩

end Relation

/-! ### A run in which nodes crash -/

namespace Cluster

/-- A cue of a run, or a restart. -/
inductive RestartCue
  | cue (cue : Cue)
  | restart (node : ℕ)

/-- The action or restart that a cue stands for. -/
def chooseOrRestart (C : Cluster σ μ) : RestartCue → Option RestartAction
  | .cue cue => (C.choose cue).map .act
  | .restart n => some (.restart n)

/-- Three nodes that compact their logs after three entries. -/
def compactingNodes : Cluster StorageContents Recorder := booted [1, 2, 3] .empty .new 3

theorem compactingNodes_initial : compactingNodes.Initial :=
  booted_initial (by decide) 3 rfl rfl rfl rfl

/-- Node 1 has committed a command with node 2, and both crash.  Node 2 comes back, is elected with
the vote of node 3, commits with node 1 and compacts its log. -/
def crashBoth : List RestartCue :=
  followCommit.map .cue ++ [.restart 1, .restart 2] ++
    ([.local 2 .startElection, .local 2 .requestVotes, .deliver 9, .answer 3,
      .local 2 .sendHeartbeat, .deliver 10, .answer 4] : List Cue).map .cue

theorem crashBoth_run : ∃ (ts : List _) (C : Cluster StorageContents Recorder),
    Run (stepOrRestart Recorder.new) compactingNodes ts C ∧
      (∀ t ∈ ts, ¬ t.source.Strays t.action) ∧
      (∃ t ∈ ts, (t.target.core 1).state = .leader ∧ (t.target.core 1).currentTerm = 1 ∧
        (t.target.core 1).commitIndex = 2 ∧
        (t.target.core 1).getLogEntry 2 = some ⟨1, 2, "SET x 1"⟩) ∧
      (∃ t ∈ ts, (t.target.core 2).commitIndex = 2 ∧
        (t.target.core 2).getLogEntry 2 = some ⟨1, 2, "SET x 1"⟩) ∧
      (C.core 1).commitIndex = 0 ∧ (C.core 2).state = .leader ∧ (C.core 2).currentTerm = 2 ∧
      (C.core 2).snapshotLastIndex = 3 :=
  exists_run_of_play (stepOrRestart Recorder.new) chooseOrRestart compactingNodes crashBoth
    (P := fun ts C => (∀ t ∈ ts, ¬ t.source.Strays t.action) ∧
      (∃ t ∈ ts, (t.target.core 1).state = .leader ∧ (t.target.core 1).currentTerm = 1 ∧
        (t.target.core 1).commitIndex = 2 ∧
        (t.target.core 1).getLogEntry 2 = some ⟨1, 2, "SET x 1"⟩) ∧
      (∃ t ∈ ts, (t.target.core 2).commitIndex = 2 ∧
        (t.target.core 2).getLogEntry 2 = some ⟨1, 2, "SET x 1"⟩) ∧
      (C.core 1).commitIndex = 0 ∧ (C.core 2).state = .leader ∧ (C.core 2).currentTerm = 2 ∧
      (C.core 2).snapshotLastIndex = 3) (by decide +kernel)

/-! ### Runs with restarts -/

variable {C C' : Cluster σ μ} {ts : List (Transition (Cluster σ μ) RestartAction)} {m₀ : μ}

/-- **What the relation says of a state, and moves keep, is remembered**: a fact `F` about a state of
the run still holds of the replicated log at its end. -/
theorem run_endures [LawfulStorage σ] [DurableSnapshots σ] (hinit : C.Initial)
    (hr : Run (stepOrRestart m₀) C ts C') (hok : ∀ t ∈ ts, ¬ t.source.Strays t.action)
    {F : Cluster σ μ → State ℕ LogEntry → Prop}
    (hF : ∀ C A, Endures (.full _ hinit.nodup) C A → F C A)
    (hframe : ∀ C n A A', F C A → Frame n A A' → F C A') :
    ∃ A, Endures (.full _ hinit.nodup) C' A ∧ ∀ t ∈ ts, F t.target A := by
  refine hr.history (J := fun ts C' => ∃ A, Endures (.full _ hinit.nodup) C' A ∧
    ∀ t ∈ ts, F t.target A) (P := fun t => ¬ t.source.Strays t.action) ?_
    ⟨_, hinit.endures rfl fun hc => absurd trivial hc, by simp⟩ hok
  rintro ts C₁ action C₂ ⟨A₁, h₁, hfacts⟩ hs hno
  obtain ⟨A₂, hm, h₂⟩ := h₁.stepOrRestart hno hs
  refine ⟨A₂, h₂, fun t ht => ?_⟩
  rcases List.mem_append.1 ht with ht | ht
  · exact hframe _ _ _ _ (hfacts t ht) hm.frame
  · obtain rfl := List.mem_singleton.1 ht
    exact hF _ _ h₂

/-- **One leader per term**, over every run in which nodes compact their logs, install snapshots,
crash and come back, as long as no node strays: whoever is leader of a term, at whatever moment, is
the same node. -/
theorem run_leader_unique [LawfulStorage σ] [DurableSnapshots σ] (hinit : C.Initial)
    (hr : Run (stepOrRestart m₀) C ts C') (hok : ∀ t ∈ ts, ¬ t.source.Strays t.action)
    {t u : Transition (Cluster σ μ) RestartAction} (ht : t ∈ ts) (hu : u ∈ ts) {m n : ℕ}
    (hm : m ∈ C.nodes) (hn : n ∈ C.nodes) (hl : (t.target.core m).state = .leader)
    (hl' : (u.target.core n).state = .leader)
    (hterm : (t.target.core m).currentTerm = (u.target.core n).currentTerm) : m = n := by
  obtain ⟨A, -, hfacts⟩ : ∃ A, Endures (.full _ hinit.nodup) C' A ∧ ∀ t ∈ ts, ∀ k ∈ C.nodes,
      (t.target.core k).state = .leader → A.leader (t.target.core k).currentTerm = some k := by
    refine run_endures hinit hr hok (F := fun C₁ A => ∀ k ∈ C.nodes,
      (C₁.core k).state = .leader → A.leader (C₁.core k).currentTerm = some k) ?_ ?_
    · intro C₁ A h k hk hlk
      have hnode := h.follows.sim.node k hk
      rw [hnode.term_eq]
      exact (hnode.leads hlk).leader
    · intro C₁ n A A' hF hf k hk hlk
      exact hf.leader_some (hF k hk hlk)
  have hmn := hfacts t ht m hm hl
  rw [hterm, hfacts u hu n hn hl', Option.some.injEq] at hmn
  exact hmn.symm

/-- After both have crashed, node 2 is the only leader of term 2. -/
theorem run_leader_unique_crashed : ∃ (ts : List _) (C : Cluster StorageContents Recorder),
    Run (stepOrRestart Recorder.new) compactingNodes ts C ∧ (C.core 1).commitIndex = 0 ∧
      ∀ t ∈ ts, ∀ u ∈ ts, ∀ n ∈ [1, 2, 3], (t.target.core 2).state = .leader →
        (u.target.core n).state = .leader →
        (t.target.core 2).currentTerm = (u.target.core n).currentTerm → n = 2 := by
  obtain ⟨ts, C, hr, hok, -, -, hback, -⟩ := crashBoth_run
  refine ⟨ts, C, hr, hback, fun t ht u hu n hn hl hl' hterm => ?_⟩
  exact (run_leader_unique compactingNodes_initial hr hok ht hu (by decide) hn hl hl' hterm).symm

/-- **Log matching** over runs with snapshots and crashes, as long as no node strays: if two nodes
have entries of the same term at an index, they have the same entries up to there, as far as neither
has compacted them. -/
theorem run_logs_match [LawfulStorage σ] [DurableSnapshots σ] (hinit : C.Initial)
    (hr : Run (stepOrRestart m₀) C ts C') (hok : ∀ t ∈ ts, ¬ t.source.Strays t.action) {m n : ℕ}
    (hm : m ∈ C.nodes) (hn : n ∈ C.nodes) {i : ℕ} {x y : LogEntry}
    (hx : (C'.core m).getLogEntry i = some x) (hy : (C'.core n).getLogEntry i = some y)
    (hterm : x.term = y.term) {j : ℕ} (hj : (C'.core m).snapshotLastIndex < j)
    (hj' : (C'.core n).snapshotLastIndex < j) (hji : j ≤ i) :
    (C'.core m).getLogEntry j = (C'.core n).getLogEntry j := by
  obtain ⟨A, h, -⟩ := run_endures hinit hr hok (F := fun _ _ => True) (fun _ _ _ => trivial)
    fun _ _ _ _ _ _ => trivial
  have hinv := Setting.inv h.follows.sim.reachable
  have hnm := (h.follows.sim.node m hm).log
  have hnn := (h.follows.sim.node n hn).log
  obtain ⟨hlt, hx⟩ := hnm.getLogEntry_iff.1 hx
  obtain ⟨-, hy⟩ := hnn.getLogEntry_iff.1 hy
  have htake : (A.log m).take i = (A.log n).take i := by
    have := logMatching_of_valid (hinv.valid_log m) (hinv.valid_log n) _ _ _ hx hy hterm
    rwa [Nat.sub_add_cancel (Nat.one_le_of_lt hlt)] at this
  refine Option.ext fun e => ?_
  rw [hnm.getLogEntry_iff, hnn.getLogEntry_iff, ← List.getElem?_take_of_lt (show j - 1 < i by omega),
    htake, List.getElem?_take_of_lt (by omega)]
  simp only [hj, hj', true_and]

/-- After both have crashed, the logs of nodes 1 and 2 match up to the entry of term 2. -/
theorem run_logs_match_crashed : ∃ (ts : List _) (C : Cluster StorageContents Recorder),
    Run (stepOrRestart Recorder.new) compactingNodes ts C ∧
      (C.core 1).getLogEntry 3 = some ⟨2, 3, noopCommand⟩ ∧
      ∀ j, 0 < j → j ≤ 3 → (C.core 1).getLogEntry j = (C.core 2).getLogEntry j := by
  obtain ⟨ts, C, hr, hok, h₁, h₂, hs₁, hs₂⟩ := exists_run_of_play (stepOrRestart Recorder.new)
    chooseOrRestart compactingNodes crashBoth.dropLast
    (P := fun ts C => (∀ t ∈ ts, ¬ t.source.Strays t.action) ∧
      (C.core 1).getLogEntry 3 = some ⟨2, 3, noopCommand⟩ ∧
      (C.core 2).getLogEntry 3 = some ⟨2, 3, noopCommand⟩ ∧
      (C.core 1).snapshotLastIndex = 0 ∧ (C.core 2).snapshotLastIndex = 0) (by decide +kernel)
  exact ⟨ts, C, hr, h₁, fun j hpos hj => run_logs_match compactingNodes_initial hr hok (by decide)
    (by decide) h₁ h₂ rfl (hs₁ ▸ hpos) (hs₂ ▸ hpos) hj⟩

/-- The entries that a node has committed are those of the log `ℓ`. -/
def Commits (core : RaftCore σ μ) (ℓ : List LogEntry) : Prop :=
  ∀ i e, i ≤ core.commitIndex → core.getLogEntry i = some e → 0 < i ∧ ℓ[i - 1]? = some e

/-- What the nodes have committed, at any moment of the run, stays committed. -/
theorem run_committed [LawfulStorage σ] [DurableSnapshots σ] (hinit : C.Initial)
    (hr : Run (stepOrRestart m₀) C ts C') (hok : ∀ t ∈ ts, ¬ t.source.Strays t.action) :
    ∃ A, Endures (.full _ hinit.nodup) C' A ∧ ∀ t ∈ ts, ∀ n ∈ C.nodes,
      ∃ ℓ, CommittedBy (Setting.full _ hinit.nodup).quorums A (t.target.core n).currentTerm ℓ ∧
        Commits (t.target.core n) ℓ := by
  refine run_endures hinit hr hok (F := fun C₁ A => ∀ n ∈ C.nodes,
    ∃ ℓ, CommittedBy (Setting.full _ hinit.nodup).quorums A (C₁.core n).currentTerm ℓ ∧
      Commits (C₁.core n) ℓ) ?_ ?_
  · intro C₁ A h n hn
    have hnode := h.follows.sim.node n hn
    have hcom := hnode.commits trivial
    refine ⟨_, hnode.term_eq ▸ hcom.committed, fun i e hi he => ?_⟩
    obtain ⟨hlt, he⟩ := hnode.log.getLogEntry_iff.1 he
    refine ⟨by omega, ?_⟩
    rw [List.getElem?_take_of_lt (by omega), he]
  · intro C₁ n A A' hF hf m hm
    obtain ⟨ℓ, hℓ, hentries⟩ := hF m hm
    exact ⟨ℓ, hℓ.frame hf, hentries⟩

omit [Snapshotable μ] in
/-- Whoever has committed entries at an index has committed the same one. -/
theorem commits_agree {nodes : List ℕ} {hnodes : nodes.Nodup} {A : State ℕ LogEntry}
    (h : Endures (.full nodes hnodes) C A) {τ : Type} {core core' : RaftCore τ μ} {T T' : ℕ}
    {ℓ ℓ' : List LogEntry} (hℓ : CommittedBy (Setting.full nodes hnodes).quorums A T ℓ)
    (hℓ' : CommittedBy (Setting.full nodes hnodes).quorums A T' ℓ') (hx' : Commits core ℓ)
    (hy' : Commits core' ℓ') {i : ℕ} {x y : LogEntry} (hi : i ≤ core.commitIndex)
    (hi' : i ≤ core'.commitIndex) (hx : core.getLogEntry i = some x)
    (hy : core'.getLogEntry i = some y) : x = y := by
  obtain ⟨-, hx⟩ := hx' i x hi hx
  obtain ⟨-, hy⟩ := hy' i y hi' hy
  have hA := h.follows.sim.reachable
  -- two committed logs, one of which continues the other
  rcases (Setting.kept hA trivial).committed_comparable (Setting.inv hA) hℓ hℓ' with ⟨r, rfl⟩ | ⟨r, rfl⟩
  · rw [List.getElem?_append_left (List.getElem?_eq_some_iff.1 hx).1, hx] at hy
    exact Option.some.inj hy
  · rw [List.getElem?_append_left (List.getElem?_eq_some_iff.1 hy).1, hy] at hx
    exact (Option.some.inj hx).symm

/-- **State machine safety** over runs with snapshots and crashes, as long as no node strays: no two
nodes ever have different entries committed at one index. -/
theorem run_committed_agree [LawfulStorage σ] [DurableSnapshots σ] (hinit : C.Initial)
    (hr : Run (stepOrRestart m₀) C ts C') (hok : ∀ t ∈ ts, ¬ t.source.Strays t.action)
    {t u : Transition (Cluster σ μ) RestartAction} (ht : t ∈ ts) (hu : u ∈ ts) {m n : ℕ}
    (hm : m ∈ C.nodes) (hn : n ∈ C.nodes) {i : ℕ} {x y : LogEntry}
    (hi : i ≤ (t.target.core m).commitIndex) (hi' : i ≤ (u.target.core n).commitIndex)
    (hx : (t.target.core m).getLogEntry i = some x)
    (hy : (u.target.core n).getLogEntry i = some y) : x = y := by
  obtain ⟨A, h, hcom⟩ := run_committed hinit hr hok
  obtain ⟨ℓ, hℓ, hx'⟩ := hcom t ht m hm
  obtain ⟨ℓ', hℓ', hy'⟩ := hcom u hu n hn
  exact commits_agree h hℓ hℓ' hx' hy' hi hi' hx hy

/-- Before the crash, the two nodes have committed the same entry at index 2. -/
theorem run_committed_agree_crashed : ∃ (ts : List _) (C : Cluster StorageContents Recorder),
    Run (stepOrRestart Recorder.new) compactingNodes ts C ∧ (C.core 1).commitIndex = 0 ∧
      ∃ t ∈ ts, ∃ u ∈ ts, ∃ x y, (t.target.core 1).getLogEntry 2 = some x ∧
        (u.target.core 2).getLogEntry 2 = some y ∧ x = y := by
  obtain ⟨ts, C, hr, hok, ⟨t, ht, -, -, hi, hx⟩, ⟨u, hu, hi', hy⟩, hback, -⟩ := crashBoth_run
  exact ⟨ts, C, hr, hback, t, ht, u, hu, _, _, hx, hy, run_committed_agree compactingNodes_initial hr
    hok ht hu (by decide) (by decide) hi.ge hi'.ge hx hy⟩

/-- **Leader completeness** over runs with snapshots and crashes, as long as no node strays: an entry
that some node has committed is in the log of every leader of that term or a later one, or has been
compacted there — also when the node that committed it has crashed in the meantime. -/
theorem run_committed_kept [LawfulStorage σ] [DurableSnapshots σ] (hinit : C.Initial)
    (hr : Run (stepOrRestart m₀) C ts C') (hok : ∀ t ∈ ts, ¬ t.source.Strays t.action)
    {t : Transition (Cluster σ μ) RestartAction} (ht : t ∈ ts) {m n : ℕ} (hm : m ∈ C.nodes)
    (hn : n ∈ C.nodes) {i : ℕ} {e : LogEntry} (hi : i ≤ (t.target.core m).commitIndex)
    (he : (t.target.core m).getLogEntry i = some e) (hl : (C'.core n).state = .leader)
    (hterm : (t.target.core m).currentTerm ≤ (C'.core n).currentTerm) :
    (C'.core n).getLogEntry i = some e ∨ i ≤ (C'.core n).snapshotLastIndex := by
  obtain ⟨A, h, hcom⟩ := run_committed hinit hr hok
  obtain ⟨ℓ, hℓ, hentries⟩ := hcom t ht m hm
  obtain ⟨hpos, he⟩ := hentries i e hi he
  have hA := h.follows.sim.reachable
  have hnode := h.follows.sim.node n hn
  have hleads := hnode.leads hl
  obtain ⟨r, hr⟩ : ℓ <+: A.llog (A.term n) :=
    (Setting.kept hA trivial).committed_prefix_llog (Setting.inv hA) hℓ hleads.leader
      (hnode.term_eq ▸ hterm)
  rcases Nat.lt_or_ge (C'.core n).snapshotLastIndex i with hlt | hge
  · refine Or.inl (hnode.log.getLogEntry_iff.2 ⟨hlt, ?_⟩)
    rw [hleads.log, ← hr, List.getElem?_append_left (List.getElem?_eq_some_iff.1 he).1, he]
  · exact Or.inr hge

/-- What node 1 committed before it crashed is part of the snapshot of the new leader. -/
theorem run_committed_kept_crashed : ∃ (ts : List _) (C : Cluster StorageContents Recorder),
    Run (stepOrRestart Recorder.new) compactingNodes ts C ∧ (C.core 1).commitIndex = 0 ∧
      (C.core 2).currentTerm = 2 ∧
      ((C.core 2).getLogEntry 2 = some ⟨1, 2, "SET x 1"⟩ ∨ 2 ≤ (C.core 2).snapshotLastIndex) := by
  obtain ⟨ts, C, hr, hok, ⟨t, ht, -, hterm, hi, hx⟩, -, hback, hl, hterm', -⟩ := crashBoth_run
  have hle : (t.target.core 1).currentTerm ≤ (C.core 2).currentTerm := by
    rw [hterm, hterm']
    decide
  exact ⟨ts, C, hr, hback, hterm', run_committed_kept compactingNodes_initial hr hok ht
    (by decide) (by decide) hi.ge hx hl hle⟩

end Cluster

end RaftVibe
