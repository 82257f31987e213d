/-
**Leader hints.**

A node that is not leader refuses clients with the field `current_leader`, so that they can go there
instead.  Role and hint are set apart from each other.  AppendEntries and elections set both.  The
other ways to step down set the role alone: a leader that is deposed by a vote request, by the answer
to one of its requests or by `confirm_leadership` still names itself.  An InstallSnapshot of its own
term sets the hint of a candidate, which stays a candidate.

Main definitions:

* `RaftVibe.RaftCore.HintOk` — a node that is not leader does not name itself, and a candidate names
  nobody;
* `RaftVibe.RaftCore.KeepsHint` — a call that keeps role and hint together.

Main results:

* `RaftVibe.RaftCore.hintOk_step_iff` — **one call**;
* `RaftVibe.RaftCore.hints_iff` — when every state of a run has a hint that helps.
-/

import RaftVibe.Operations
import RaftVibe.RaftServerSpec

set_option relaxedAutoImplicit false
set_option autoImplicit false

namespace RaftVibe

open Runs

variable {σ μ : Type}

namespace RaftCore

/-- **The hint helps**: a node that is not leader does not name itself, and a candidate names nobody. -/
structure HintOk (core : RaftCore σ μ) : Prop where
  other : core.state ≠ .leader → core.currentLeader ≠ some core.id
  candidate : core.state = .candidate → core.currentLeader = none

/-- The node does not name itself when it observes this term, if it is new. -/
def DeposedUnnamed (core : RaftCore σ μ) (term : ℕ) : Prop :=
  core.currentTerm < term → core.currentLeader ≠ some core.id

/-- **A call that keeps role and hint together**: it does not depose a node that names itself, unless
it sets the hint; and it sets the hint of a node neither to the node itself nor if it is a candidate
and stays one. -/
def KeepsHint (core : RaftCore σ μ) : Op → Prop
  | .requestVote args => core.DeposedUnnamed args.term
  | .appendEntries args => core.currentTerm ≤ args.term → args.leaderId ≠ core.id
  | .installSnapshot args =>
      (core.currentTerm < args.term → args.leaderId ≠ core.id) ∧
        (core.currentTerm = args.term →
          core.state ≠ .candidate ∧ (core.state = .follower → args.leaderId ≠ core.id))
  | .requestVoteResult _ result => core.DeposedUnnamed result.term
  | .appendEntriesResult _ _ result => core.DeposedUnnamed result.term
  | .installSnapshotResult _ _ (.failed term _) => core.DeposedUnnamed term
  | .confirmResult result => core.DeposedUnnamed result.term
  | _ => True

variable {core core' : RaftCore σ μ}

/-- Role, hint and name are all that counts. -/
def SameHint (core core' : RaftCore σ μ) : Prop :=
  core'.state = core.state ∧ core'.currentLeader = core.currentLeader ∧ core'.id = core.id

theorem hintOk_congr (core core' : RaftCore σ μ) (h : core.SameHint core') :
    core'.HintOk ↔ core.HintOk := by
  obtain ⟨hstate, hleader, hid⟩ := h
  constructor
  · rintro ⟨h₁, h₂⟩
    rw [hstate, hleader] at h₁ h₂
    exact ⟨hid ▸ h₁, h₂⟩
  · rintro ⟨h₁, h₂⟩
    refine ⟨?_, ?_⟩
    · rw [hstate, hleader, hid]
      exact h₁
    · rw [hstate, hleader]
      exact h₂

theorem HintOk.congr (h : core.HintOk) (hstate : core'.state = core.state)
    (hleader : core'.currentLeader = core.currentLeader) (hid : core'.id = core.id) :
    core'.HintOk :=
  (hintOk_congr core core' ⟨hstate, hleader, hid⟩).2 h

theorem hintOk_of_leader (h : core.state = .leader) : core.HintOk := by
  refine ⟨fun hne => absurd h hne, fun hcand => ?_⟩
  rw [h] at hcand
  cases hcand

theorem hintOk_follower_iff (h : core.state = .follower) :
    core.HintOk ↔ core.currentLeader ≠ some core.id := by
  constructor
  · intro hok
    exact hok.other (by rw [h]; simp)
  · intro hne
    refine ⟨fun _ => hne, fun hcand => ?_⟩
    rw [h] at hcand
    cases hcand

variable [Storage σ]

/-- Observing a term takes the role away, but not the hint. -/
theorem observeTerm_hintOk {core₁ : RaftCore σ μ} {term : ℕ}
    (h₁ : core.observeTerm term = .ok core₁) (h : core.HintOk) :
    core₁.HintOk ↔ core.DeposedUnnamed term := by
  rcases observeTerm_ok h₁ with ⟨hle, rfl⟩ | ⟨hlt, s, -, rfl⟩
  · exact iff_of_true h fun hlt => absurd hle (not_le.2 hlt)
  · rw [hintOk_follower_iff rfl]
    exact ⟨fun hne _ => hne, fun hunnamed => hunnamed hlt⟩

theorem handleRequestVote_hintOk {args : RequestVoteArgs} {result : RequestVoteResult}
    (hs : core.handleRequestVote args = .ok (core', result)) (h : core.HintOk) :
    core'.HintOk ↔ core.DeposedUnnamed args.term := by
  rcases handleRequestVote_ok hs with ⟨hlt, rfl, -⟩ | ⟨core₁, h₁, -, ⟨rfl, -⟩ | ⟨-, -, hset, -⟩⟩
  · exact iff_of_true h fun hnew => absurd hlt (lt_asymm hnew)
  · exact observeTerm_hintOk h₁ h
  · obtain ⟨-, rfl⟩ := setVotedFor_ok.1 hset
    rw [← observeTerm_hintOk h₁ h]
    exact hintOk_congr core₁ _ ⟨rfl, rfl, rfl⟩

theorem handleRequestVoteResult_hintOk {peerId : ℕ} {result : RequestVoteResult} {won : Bool}
    (hs : core.handleRequestVoteResult peerId result = .ok (core', won)) (h : core.HintOk) :
    core'.HintOk ↔ core.DeposedUnnamed result.term := by
  obtain ⟨core₁, h₁, ⟨-, rfl, -⟩ | ⟨hcand, core₂, rfl, hor⟩⟩ := handleRequestVoteResult_ok hs
  · exact observeTerm_hintOk h₁ h
  · obtain ⟨votes, heq, -⟩ := countVote_eq core₁ peerId result
    rw [heq] at hor
    rcases hor with ⟨rfl, -⟩ | ⟨-, hlead, -⟩
    · rw [← observeTerm_hintOk h₁ h]
      exact hintOk_congr core₁ _ ⟨rfl, rfl, rfl⟩
    · -- a candidate has observed nothing new
      obtain rfl : core₁ = core := eq_of_observeTerm h₁ (by rw [hcand]; simp)
      obtain ⟨s, -, rfl⟩ := becomeLeader_ok hlead
      refine iff_of_true (hintOk_of_leader rfl) fun _ hself => ?_
      rw [h.candidate hcand] at hself
      cases hself

variable [Snapshotable μ]

theorem handleAppendEntriesResult_hintOk {peerId entryIndex : ℕ} {result : AppendEntriesResult}
    {commit : Option ℕ} {results : List (ℕ × ApplyResult)}
    (hs : core.handleAppendEntriesResult peerId entryIndex result = .ok (core', commit, results))
    (h : core.HintOk) : core'.HintOk ↔ core.DeposedUnnamed result.term := by
  obtain ⟨core₁, h₁, ⟨-, rfl, -⟩ | ⟨-, core₂, rfl, hor⟩⟩ := handleAppendEntriesResult_ok hs
  · exact observeTerm_hintOk h₁ h
  · rw [← observeTerm_hintOk h₁ h]
    obtain ⟨next, match', heq, -⟩ := recordAppendResult_eq core₁ peerId entryIndex result
    rw [heq] at hor
    rcases hor with ⟨rfl, -⟩ | ⟨-, -, -, -, -, happly⟩
    · exact hintOk_congr core₁ _ ⟨rfl, rfl, rfl⟩
    · obtain ⟨_, _, _, _, _, _, rfl⟩ := applyCommittedEntries_eq happly
      exact hintOk_congr core₁ _ ⟨rfl, rfl, rfl⟩

/-- AppendEntries sets role and hint. -/
theorem handleAppendEntries_hintOk {args : AppendEntriesArgs} {out : HandleAppendEntriesOutput}
    (hs : core.handleAppendEntries args = .ok (core', out)) (h : core.HintOk) :
    core'.HintOk ↔ (core.currentTerm ≤ args.term → args.leaderId ≠ core.id) := by
  obtain ⟨core₁, h₁, hor⟩ := handleAppendEntries_ok hs
  have hid : core₁.id = core.id := (observeTerm_sameNode h₁).1
  have hmax := observeTerm_currentTerm h₁
  rcases hor with ⟨hlt, rfl, -⟩ | ⟨hterm, core₂, rfl, hor⟩
  · have hlt' : args.term < core.currentTerm := by omega
    rw [observeTerm_hintOk h₁ h]
    exact iff_of_true (fun hnew => absurd hlt' (lt_asymm hnew)) fun hle => absurd hlt' (not_lt.2 hle)
  · have hsame : SameHint { core₁ with state := .follower, currentLeader := some args.leaderId }
        core' := by
      rcases hor with ⟨rfl, -⟩ | ⟨-, hacc, -⟩
      · exact ⟨rfl, rfl, rfl⟩
      · obtain ⟨_, _, _, _, _, _, _, rfl⟩ := acceptEntries_eq hacc
        exact ⟨rfl, rfl, rfl⟩
    rw [hintOk_congr _ _ hsame, hintOk_follower_iff rfl]
    have hle : core.currentTerm ≤ args.term := by omega
    simp [hid, hle]

/-- InstallSnapshot sets the hint, but the role only if the term is new. -/
theorem handleInstallSnapshot_hintOk {args : InstallSnapshotArgs} {result : InstallSnapshotResult}
    (hs : core.handleInstallSnapshot args = .ok (core', result)) (h : core.HintOk) :
    core'.HintOk ↔ core.KeepsHint (.installSnapshot args) := by
  rcases handleInstallSnapshot_ok hs with ⟨hlt, rfl, -⟩ | ⟨core₁, core₂, h₁, hterm, rfl, hor⟩
  · refine iff_of_true h ⟨fun hnew => absurd hlt (lt_asymm hnew), fun heq => ?_⟩
    exact absurd hlt (heq ▸ lt_irrefl _)
  · have hsame : SameHint { core₁ with currentLeader := some args.leaderId } core' := by
      rcases hor with ⟨s, reason, rfl, -⟩ | ⟨-, s, m, -, -, rfl, -⟩ <;> exact ⟨rfl, rfl, rfl⟩
    rw [hintOk_congr _ _ hsame, KeepsHint]
    rcases observeTerm_ok h₁ with ⟨hle, rfl⟩ | ⟨hlt, s, -, rfl⟩
    · have hnew : ¬ core₁.currentTerm < args.term := not_lt.2 hle
      cases hstate : core₁.state with
      | leader => simp [hintOk_of_leader, hnew]
      | candidate =>
          simp only [hterm, ne_eq, not_true_eq_false, false_and, forall_const, and_false, iff_false]
          intro hok
          cases hok.candidate rfl
      | follower =>
          rw [hintOk_follower_iff rfl]
          simp [hterm]
    · have hne : core.currentTerm ≠ args.term := fun heq => absurd hlt (heq ▸ lt_irrefl _)
      rw [hintOk_follower_iff rfl]
      simp [hlt, hne]

omit [Storage σ] [Snapshotable μ] in
theorem stepsDown_hintOk {term : ℕ} (hs : core.StepsDown term core') (h : core.HintOk) :
    core'.HintOk ↔ core.DeposedUnnamed term := by
  rcases hs with ⟨hlt, rfl⟩ | ⟨hle, rfl⟩
  · have hiff : (core.stepDownInMemory term).HintOk ↔ core.currentLeader ≠ some core.id :=
      hintOk_follower_iff rfl
    rw [hiff]
    exact ⟨fun hne _ => hne, fun hunnamed => hunnamed hlt⟩
  · exact iff_of_true h fun hlt => absurd hle (not_le.2 hlt)

/-- **One call** keeps a hint that helps exactly if it keeps role and hint together. -/
theorem hintOk_step_iff {op : Op} (hs : op.step core = some core') (h : core.HintOk) :
    core'.HintOk ↔ core.KeepsHint op := by
  cases Op.ran_of_step hs with
  | requestVote hr => exact handleRequestVote_hintOk hr h
  | appendEntries hr => exact handleAppendEntries_hintOk hr h
  | installSnapshot hr => exact handleInstallSnapshot_hintOk hr h
  | startElection hr =>
      obtain ⟨_, -, rfl⟩ := startElection_ok hr
      refine iff_of_true ⟨fun _ hself => ?_, fun _ => rfl⟩ trivial
      cases hself
  | becomeLeader hr =>
      obtain ⟨_, -, rfl⟩ := becomeLeader_ok hr
      exact iff_of_true (hintOk_of_leader rfl) trivial
  | appendLogEntry hr =>
      refine iff_of_true ?_ trivial
      rcases appendLogEntry_ok hr with ⟨-, rfl, -⟩ | ⟨-, _, _, -, -, -, rfl⟩
      · exact h
      · exact h.congr rfl rfl rfl
  | applyCommittedEntries hr =>
      obtain ⟨_, _, _, _, _, _, rfl⟩ := applyCommittedEntries_eq hr
      exact iff_of_true (h.congr rfl rfl rfl) trivial
  | takeSnapshot =>
      obtain ⟨_, _, _, _, heq⟩ := takeSnapshot_eq core
      rw [heq]
      exact iff_of_true (h.congr rfl rfl rfl) trivial
  | requestVoteResult hr => exact handleRequestVoteResult_hintOk hr h
  | appendEntriesResult hr => exact handleAppendEntriesResult_hintOk hr h
  | installSnapshotSuccess => exact iff_of_true (h.congr rfl rfl rfl) trivial
  | installSnapshotFailed hdown => exact stepsDown_hintOk hdown h
  | confirmResult hdown => exact stepsDown_hintOk hdown h

theorem new_hintOk {id : ℕ} {peers : List ℕ} {storage : σ} {stateMachine : μ}
    (hnew : RaftCore.new id peers storage stateMachine = .ok core) : core.HintOk := by
  simp only [RaftCore.new, Except.bind_eq_ok, Except.pure_eq_ok] at hnew
  obtain ⟨term, -, votedFor, -, log, -, snapshot, -, m, -, rfl⟩ := hnew
  refine (hintOk_follower_iff rfl).2 fun hself => ?_
  cases hself

end RaftCore

/-! ### Refusals -/

/-- The hint of a `NotLeader` error that a client gets. -/
def Event.leaderHint : Event → Option (Option ℕ)
  | .submitReturned _ _ _ (.error (.notLeader hint)) => some hint
  | .readReturned _ _ (.error (.notLeader hint)) => some hint
  | _ => none

variable [Storage σ] [Snapshotable μ]

omit [Storage σ] [Snapshotable μ] in
theorem leaderHint_submitResult (node : ℕ) (command : String) (entryIndex : Option ℕ)
    (result : ApplyResult) : (Event.submitReturned node command entryIndex
      (Server.submitResult result)).leaderHint = none := by
  cases result <;> rfl

/-- A node refuses clients with its own hint, or with none. -/
theorem leaderHint_of_act {s : Server σ μ} {now : ℕ} {action : LocalAction} {e : Effect σ μ}
    (h : s.act now action = some e) {event : Event} (hevent : event ∈ e.events) {hint : Option ℕ}
    (hhint : event.leaderHint = some hint) : hint = s.core.currentLeader ∨ hint = none := by
  cases action <;> simp only [Server.act] at h <;> repeat' split at h
  -- most branches say nothing to a client
  all_goals first
    | (cases h; done)
    | (obtain rfl := Option.some.inj h
       simp only [Server.proceed, Server.send, List.mem_singleton, List.not_mem_nil] at hevent)
  all_goals subst hevent
  -- the others return a result, another error, or this one
  all_goals first
    | (rw [leaderHint_submitResult] at hhint; cases hhint)
    | (simp only [Event.leaderHint, reduceCtorEq] at hhint; done)
    | (simp only [Event.leaderHint, Option.some.injEq] at hhint; simp [← hhint])

namespace RaftCore

/-- **When every state of a run has a hint that helps**: exactly if all of its calls keep role and
hint together.  Then a node that is not leader never sends a client back to itself. -/
theorem hints_iff {id : ℕ} {peers : List ℕ} {storage : σ} {stateMachine : μ} {core core' : RaftCore σ μ}
    (hnew : RaftCore.new id peers storage stateMachine = .ok core)
    {ts : List (Transition (RaftCore σ μ) Op)} (hrun : Run Op.step core ts core') :
    ((∀ t ∈ ts, t.target.HintOk) ↔ ∀ t ∈ ts, t.source.KeepsHint t.action) ∧
      ((∀ t ∈ ts, t.source.KeepsHint t.action) → core'.state ≠ .leader →
        ∀ task rounds now action (e : Effect σ μ),
          Server.act ⟨core', task, rounds⟩ now action = some e →
          ∀ event ∈ e.events, ∀ hint, event.leaderHint = some hint → hint ≠ some core'.id) := by
  have hstep : ∀ (core : RaftCore σ μ) op core', core.HintOk → Op.step core op = some core' →
      (core'.HintOk ↔ core.KeepsHint op) := fun _ _ _ h hs => hintOk_step_iff hs h
  refine ⟨hrun.invariant_iff (P := fun t => t.source.KeepsHint t.action) hstep (new_hintOk hnew),
    fun hkeeps hstate task rounds now action e hact event hevent hint hhint => ?_⟩
  have hok : core'.HintOk := hrun.invariant (P := fun t => t.source.KeepsHint t.action)
    (fun _ _ _ h hs hkeep => (hstep _ _ _ h hs).2 hkeep) (new_hintOk hnew) hkeeps
  rcases leaderHint_of_act hact hevent hhint with rfl | rfl
  · exact hok.other hstate
  · simp

theorem hints_iff_example : ∃ (ts : List (Transition (RaftCore MemoryStorage Recorder) Op))
    (core' : RaftCore MemoryStorage Recorder),
    Run Op.step (fresh 1 [2, 3] MemoryStorage.new Recorder.new) ts core' ∧
      core'.currentLeader = some 2 ∧ ∀ t ∈ ts, t.target.HintOk := by
  obtain ⟨ts, core', hrun, hkeeps, hleader⟩ := exists_run Op.step
    (fresh 1 [2, 3] MemoryStorage.new Recorder.new)
    [.startElection, .requestVoteResult 2 ⟨1, true⟩, .appendEntries ⟨2, 2, 0, 0, [], 0⟩]
    (P := fun t => t.source.KeepsHint t.action) (Q := fun core' => core'.currentLeader = some 2)
    ⟨_, rfl, by simp [KeepsHint, DeposedUnnamed, fresh], rfl⟩
  have hnew : RaftCore.new 1 [2, 3] MemoryStorage.new Recorder.new
      = .ok (fresh 1 [2, 3] MemoryStorage.new Recorder.new) := rfl
  exact ⟨ts, core', hrun, hleader, (hints_iff hnew hrun).1.2 hkeeps⟩

/-- A leader that is deposed by a vote request sends clients back to itself, and a candidate follows
the leader of its term without giving up. -/
theorem hints_lost :
    (∃ (ts : List (Transition (RaftCore MemoryStorage Recorder) Op))
      (core' : RaftCore MemoryStorage Recorder) (e : Effect MemoryStorage Recorder),
      Run Op.step (fresh 1 [2, 3] MemoryStorage.new Recorder.new) ts core' ∧
        core'.state = .follower ∧ core'.currentLeader = some core'.id ∧
        Server.act ⟨core', .idle, 0⟩ 0 (.submit "SET x 1") = some e ∧
        e.events = [.submitReturned core'.id "SET x 1" none (.error (.notLeader (some core'.id)))]) ∧
    ∃ (ts : List (Transition (RaftCore MemoryStorage Recorder) Op))
      (core' : RaftCore MemoryStorage Recorder),
      Run Op.step (fresh 1 [2, 3] MemoryStorage.new Recorder.new) ts core' ∧
        core'.state = .candidate ∧ core'.currentLeader = some 2 := by
  constructor
  · obtain ⟨ts, core', hrun, -, hstate, hself⟩ := exists_run Op.step
      (fresh 1 [2, 3] MemoryStorage.new Recorder.new)
      [.startElection, .requestVoteResult 2 ⟨1, true⟩, .requestVote ⟨2, 2, 0, 0⟩]
      (P := fun _ => True)
      (Q := fun core' => core'.state = .follower ∧ core'.currentLeader = some core'.id)
      ⟨_, rfl, by simp, rfl, rfl⟩
    have hact : Server.act ⟨core', .idle, 0⟩ 0 (.submit "SET x 1") = some (Server.proceed
        ⟨core', .idle, 0⟩ core' .idle
        [.submitReturned core'.id "SET x 1" none (.error (.notLeader core'.currentLeader))]) := by
      simp only [Server.act]
      rw [if_pos (by rw [hstate]; simp)]
    exact ⟨ts, core', _, hrun, hstate, hself, hact, by rw [Server.proceed, hself]⟩
  · obtain ⟨ts, core', hrun, -, hstate, hleader⟩ := exists_run Op.step
      (fresh 1 [2, 3] MemoryStorage.new Recorder.new)
      [.startElection, .installSnapshot ⟨1, 2, 0, 0, []⟩] (P := fun _ => True)
      (Q := fun core' => core'.state = .candidate ∧ core'.currentLeader = some 2)
      ⟨_, rfl, by simp, rfl, rfl⟩
    exact ⟨ts, core', hrun, hstate, hleader⟩

end RaftCore

end RaftVibe
