/-
**The operations of a single node.**

A node by itself is a state and the calls that its surroundings make: RPCs that arrive, replies
that come back, timeouts and client commands.  Each call is one `Op`, and `Op.run` dispatches it to
the method of the core, or to the part of the node layer that handles the reply.  A sequence of
calls is a run of `Op.step`, so the theorems about one node hold for any surroundings that keep the
promises stated there.

Main definitions:

* `RaftVibe.Op`, `RaftVibe.Op.run` — the calls, and what they do;
* `RaftVibe.Op.step` — a call that does not panic, as a step;
* `RaftVibe.Op.Ran` — what a call that returns has done.

Main results:

* `RaftVibe.Op.ran_of_step` — **the inversion of a step**.
-/

import RaftVibe.RaftCoreSpec
import RaftVibe.RaftNode
import RaftVibe.Runs

set_option relaxedAutoImplicit false
set_option autoImplicit false

namespace RaftVibe

/-- A call of a method of the core, or of what the node layer does with one answer. -/
inductive Op
  | requestVote (args : RequestVoteArgs)
  | appendEntries (args : AppendEntriesArgs)
  | installSnapshot (args : InstallSnapshotArgs)
  | startElection
  | becomeLeader
  | appendLogEntry (command : String)
  | applyCommittedEntries
  | takeSnapshot
  | requestVoteResult (peerId : ℕ) (result : RequestVoteResult)
  | appendEntriesResult (peerId entryIndex : ℕ) (result : AppendEntriesResult)
  | installSnapshotResult (peerId lastIncludedIndex : ℕ) (result : InstallSnapshotResult)
  | confirmResult (result : AppendEntriesResult)
deriving DecidableEq, Repr

namespace RaftCore

variable {σ μ : Type}

/-- The node layer steps down if the term is new, and else goes on. -/
def StepsDown (core : RaftCore σ μ) (term : ℕ) (core' : RaftCore σ μ) : Prop :=
  (core.currentTerm < term ∧ core' = core.stepDownInMemory term) ∨
    (term ≤ core.currentTerm ∧ core' = core)

theorem stepsDown_ite (core : RaftCore σ μ) (term : ℕ) :
    core.StepsDown term
      (if term > core.currentTerm then core.stepDownInMemory term else core) := by
  split
  · rename_i hlt
    exact Or.inl ⟨hlt, rfl⟩
  · rename_i hle
    exact Or.inr ⟨not_lt.1 hle, rfl⟩

/-- What an installed snapshot writes into the index maps. -/
theorem handleInstallSnapshotResult_getD (core : RaftCore σ μ)
    (peerId lastIncludedIndex term peer : ℕ) :
    (core.handleInstallSnapshotResult peerId lastIncludedIndex (.success term)).nextIndex.getD peer 1
        = (if peer = peerId then lastIncludedIndex + 1 else core.nextIndex.getD peer 1) ∧
      (core.handleInstallSnapshotResult peerId lastIncludedIndex (.success term)).matchIndex.getD peer 0
        = if peer = peerId then lastIncludedIndex else core.matchIndex.getD peer 0 := by
  rw [handleInstallSnapshotResult]
  split
  · rename_i hp
    subst hp
    exact ⟨IndexMap.getD_insert_self _ _ _ _, IndexMap.getD_insert_self _ _ _ _⟩
  · rename_i hp
    exact ⟨IndexMap.getD_insert_ne hp _ _ _, IndexMap.getD_insert_ne hp _ _ _⟩

end RaftCore

namespace Op

variable {σ μ : Type} [Storage σ] [Snapshotable μ]

/-- What a call does to the core, and the answer it gives if it is an RPC. -/
def run (core : RaftCore σ μ) : Op → Except (Panic σ) (RaftCore σ μ × Option Reply)
  | requestVote args => do
      let (core, result) ← core.handleRequestVote args
      return (core, some (.requestVote result))
  | appendEntries args => do
      let (core, output) ← core.handleAppendEntries args
      return (core, some (.appendEntries output.result))
  | installSnapshot args => do
      let (core, result) ← core.handleInstallSnapshot args
      return (core, some (.installSnapshot result))
  | startElection => do
      let core ← core.startElection
      return (core, none)
  | becomeLeader => do
      let core ← core.becomeLeader
      return (core, none)
  | appendLogEntry command => do
      let (core, _) ← core.appendLogEntry command
      return (core, none)
  | applyCommittedEntries => do
      let (core, _) ← core.applyCommittedEntries
      return (core, none)
  | takeSnapshot => .ok (core.takeSnapshot.1, none)
  | requestVoteResult peerId result => do
      let (core, _) ← core.handleRequestVoteResult peerId result
      return (core, none)
  | appendEntriesResult peerId entryIndex result => do
      let (core, _) ← core.handleAppendEntriesResult peerId entryIndex result
      return (core, none)
  | installSnapshotResult peerId lastIncludedIndex result =>
      .ok (core.handleInstallSnapshotResult peerId lastIncludedIndex result, none)
  | confirmResult result => .ok ((core.handleConfirmResult result).1, none)

/-- A call that returns. -/
def step (core : RaftCore σ μ) (op : Op) : Option (RaftCore σ μ) :=
  match op.run core with
  | .ok (core, _) => some core
  | .error _ => none

theorem step_eq_some {core core' : RaftCore σ μ} {op : Op} :
    op.step core = some core' ↔ ∃ reply, op.run core = .ok (core', reply) := by
  unfold step
  split
  · rename_i h
    simp [h]
  · rename_i h
    simp [h]

/-- **What a call that returns has done**: its method has returned, and the node layer has stepped
down or gone on. -/
inductive Ran (core : RaftCore σ μ) : Op → RaftCore σ μ → Prop
  | requestVote {args : RequestVoteArgs} {core' : RaftCore σ μ} {result : RequestVoteResult} :
      core.handleRequestVote args = .ok (core', result) → Ran core (.requestVote args) core'
  | appendEntries {args : AppendEntriesArgs} {core' : RaftCore σ μ}
      {output : HandleAppendEntriesOutput} :
      core.handleAppendEntries args = .ok (core', output) → Ran core (.appendEntries args) core'
  | installSnapshot {args : InstallSnapshotArgs} {core' : RaftCore σ μ}
      {result : InstallSnapshotResult} :
      core.handleInstallSnapshot args = .ok (core', result) → Ran core (.installSnapshot args) core'
  | startElection {core' : RaftCore σ μ} :
      core.startElection = .ok core' → Ran core .startElection core'
  | becomeLeader {core' : RaftCore σ μ} :
      core.becomeLeader = .ok core' → Ran core .becomeLeader core'
  | appendLogEntry {command : String} {core' : RaftCore σ μ} {entry : Option LogEntry} :
      core.appendLogEntry command = .ok (core', entry) → Ran core (.appendLogEntry command) core'
  | applyCommittedEntries {core' : RaftCore σ μ} {results : List (ℕ × ApplyResult)} :
      core.applyCommittedEntries = .ok (core', results) → Ran core .applyCommittedEntries core'
  | takeSnapshot : Ran core .takeSnapshot core.takeSnapshot.1
  | requestVoteResult {peerId : ℕ} {result : RequestVoteResult} {core' : RaftCore σ μ}
      {won : Bool} : core.handleRequestVoteResult peerId result = .ok (core', won) →
      Ran core (.requestVoteResult peerId result) core'
  | appendEntriesResult {peerId entryIndex : ℕ} {result : AppendEntriesResult}
      {core' : RaftCore σ μ} {commit : Option ℕ} {results : List (ℕ × ApplyResult)} :
      core.handleAppendEntriesResult peerId entryIndex result = .ok (core', commit, results) →
      Ran core (.appendEntriesResult peerId entryIndex result) core'
  | installSnapshotSuccess {peerId lastIncludedIndex term : ℕ} :
      Ran core (.installSnapshotResult peerId lastIncludedIndex (.success term))
        (core.handleInstallSnapshotResult peerId lastIncludedIndex (.success term))
  | installSnapshotFailed {peerId lastIncludedIndex term : ℕ} {reason : String}
      {core' : RaftCore σ μ} : core.StepsDown term core' →
      Ran core (.installSnapshotResult peerId lastIncludedIndex (.failed term reason)) core'
  | confirmResult {result : AppendEntriesResult} {core' : RaftCore σ μ} :
      core.StepsDown result.term core' → Ran core (.confirmResult result) core'

/-- **The inversion of a step.** -/
theorem ran_of_step {core core' : RaftCore σ μ} {op : Op} (hs : op.step core = some core') :
    Ran core op core' := by
  obtain ⟨reply, hr⟩ := step_eq_some.1 hs
  cases op with
  | requestVote args =>
      simp only [run, Except.bind_eq_ok, Except.pure_eq_ok, Prod.mk.injEq, Prod.exists] at hr
      obtain ⟨_, result, hr, rfl, -⟩ := hr
      exact .requestVote hr
  | appendEntries args =>
      simp only [run, Except.bind_eq_ok, Except.pure_eq_ok, Prod.mk.injEq, Prod.exists] at hr
      obtain ⟨_, output, hr, rfl, -⟩ := hr
      exact .appendEntries hr
  | installSnapshot args =>
      simp only [run, Except.bind_eq_ok, Except.pure_eq_ok, Prod.mk.injEq, Prod.exists] at hr
      obtain ⟨_, result, hr, rfl, -⟩ := hr
      exact .installSnapshot hr
  | startElection =>
      simp only [run, Except.bind_eq_ok, Except.pure_eq_ok, Prod.mk.injEq] at hr
      obtain ⟨_, hr, rfl, -⟩ := hr
      exact .startElection hr
  | becomeLeader =>
      simp only [run, Except.bind_eq_ok, Except.pure_eq_ok, Prod.mk.injEq] at hr
      obtain ⟨_, hr, rfl, -⟩ := hr
      exact .becomeLeader hr
  | appendLogEntry command =>
      simp only [run, Except.bind_eq_ok, Except.pure_eq_ok, Prod.mk.injEq, Prod.exists] at hr
      obtain ⟨_, entry, hr, rfl, -⟩ := hr
      exact .appendLogEntry hr
  | applyCommittedEntries =>
      simp only [run, Except.bind_eq_ok, Except.pure_eq_ok, Prod.mk.injEq, Prod.exists] at hr
      obtain ⟨_, results, hr, rfl, -⟩ := hr
      exact .applyCommittedEntries hr
  | takeSnapshot =>
      simp only [run, Except.ok.injEq, Prod.mk.injEq] at hr
      obtain ⟨rfl, -⟩ := hr
      exact .takeSnapshot
  | requestVoteResult peerId result =>
      simp only [run, Except.bind_eq_ok, Except.pure_eq_ok, Prod.mk.injEq, Prod.exists] at hr
      obtain ⟨_, won, hr, rfl, -⟩ := hr
      exact .requestVoteResult hr
  | appendEntriesResult peerId entryIndex result =>
      simp only [run, Except.bind_eq_ok, Except.pure_eq_ok, Prod.mk.injEq, Prod.exists] at hr
      obtain ⟨_, commit, results, hr, rfl, -⟩ := hr
      exact .appendEntriesResult hr
  | installSnapshotResult peerId lastIncludedIndex result =>
      simp only [run, Except.ok.injEq, Prod.mk.injEq] at hr
      obtain ⟨rfl, -⟩ := hr
      cases result with
      | success term => exact .installSnapshotSuccess
      | failed term reason => exact .installSnapshotFailed (RaftCore.stepsDown_ite core term)
  | confirmResult result =>
      simp only [run, Except.ok.injEq, Prod.mk.injEq] at hr
      obtain ⟨rfl, -⟩ := hr
      refine .confirmResult ?_
      rw [RaftCore.handleConfirmResult, apply_ite Prod.fst]
      exact RaftCore.stepsDown_ite core result.term

end Op

end RaftVibe
