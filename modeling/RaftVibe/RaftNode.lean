/-
**The node layer**: what `core/raft_node.rs` reads from the core under one lock before it sends,
and what it does with each answer under another.

A method of `RaftNode` takes the lock once to build its requests, releases it while the requests
travel, and takes it again for every answer.  So each method falls apart into a *capture*, which
is a function of the core alone, and a *handler* for one answer; the lock is free in between.

Main definitions:

* `RaftVibe.RaftCore.requestVoteArgs` — the capture of `request_votes`;
* `RaftVibe.RaftCore.replicateArgs` — the capture of `replicate_to_peers`;
* `RaftVibe.RaftCore.heartbeatRequest` — the capture of `send_heartbeat`, for one peer;
* `RaftVibe.RaftCore.confirmArgs` — the capture of `confirm_leadership`;
* `RaftVibe.RaftCore.handleInstallSnapshotResult`, `RaftVibe.RaftCore.handleConfirmResult` — the
  answers that the node layer handles by writing the core's fields itself.
-/

import RaftVibe.RaftCore

set_option relaxedAutoImplicit false
set_option autoImplicit false

namespace RaftVibe

/-- A request of one node to another. -/
inductive Request
  | requestVote (args : RequestVoteArgs)
  | appendEntries (args : AppendEntriesArgs)
  | installSnapshot (args : InstallSnapshotArgs)
deriving DecidableEq, Repr

/-- The answer to a request. -/
inductive Reply
  | requestVote (result : RequestVoteResult)
  | appendEntries (result : AppendEntriesResult)
  | installSnapshot (result : InstallSnapshotResult)
deriving DecidableEq, Repr

/-- The term a request carries. -/
def Request.term : Request → ℕ
  | requestVote args => args.term
  | appendEntries args => args.term
  | installSnapshot args => args.term

/-- The term a reply carries. -/
def Reply.term : Reply → ℕ
  | requestVote result => result.term
  | appendEntries result => result.term
  | installSnapshot result => result.term

namespace RaftCore

variable {σ μ : Type} [Storage σ] [Snapshotable μ]

/-! ### Captures -/

/-- The arguments of `request_votes`, the same for every peer. -/
def requestVoteArgs (core : RaftCore σ μ) : RequestVoteArgs where
  term := core.currentTerm
  candidateId := core.id
  lastLogIndex := core.lastLogIndex
  lastLogTerm := core.lastLogTerm

/-- The term sent along with `prev_log_index`; the three senders compute it alike.  An index
inside the snapshot gets term `0`. -/
def prevLogTerm (core : RaftCore σ μ) (prevLogIndex : ℕ) : ℕ :=
  if prevLogIndex = core.snapshotLastIndex then core.snapshotLastTerm
  else if prevLogIndex = 0 then 0
  else if prevLogIndex > core.snapshotLastIndex then
    ((core.log[prevLogIndex - core.snapshotLastIndex - 1]?).map LogEntry.term).getD 0
  else 0

/-- An AppendEntries request to a peer, with the given entries. -/
def appendEntriesArgs (core : RaftCore σ μ) (peerId : ℕ) (entries : List LogEntry) :
    AppendEntriesArgs where
  term := core.currentTerm
  leaderId := core.id
  prevLogIndex := core.nextIndex.getD peerId 1 - 1
  prevLogTerm := core.prevLogTerm (core.nextIndex.getD peerId 1 - 1)
  entries
  leaderCommit := core.commitIndex

/-- `replicate_to_peers`: the entries from `next_index` up to the submitted one.  The role of the
node is not looked at. -/
def replicateArgs (core : RaftCore σ μ) (entryIndex peerId : ℕ) : AppendEntriesArgs :=
  core.appendEntriesArgs peerId <| core.log.filter fun e =>
    core.nextIndex.getD peerId 1 ≤ e.index ∧ e.index ≤ entryIndex

/-- `send_heartbeat`: the stored snapshot to a peer that needs compacted entries (nothing if it
cannot be loaded), else all the entries from `next_index` on. -/
def heartbeatRequest (core : RaftCore σ μ) (peerId : ℕ) : Option Request :=
  let nextIdx := core.nextIndex.getD peerId 1
  if nextIdx ≤ core.snapshotLastIndex then
    match Storage.loadSnapshot core.storage with
    | .ok (some snapshot) => some <| .installSnapshot {
        term := core.currentTerm
        leaderId := core.id
        lastIncludedIndex := snapshot.metadata.lastIncludedIndex
        lastIncludedTerm := snapshot.metadata.lastIncludedTerm
        data := snapshot.data }
    | _ => none
  else
    some <| .appendEntries <| core.appendEntriesArgs peerId <|
      core.log.filter fun e => nextIdx ≤ e.index

/-- `confirm_leadership`: an AppendEntries without entries. -/
def confirmArgs (core : RaftCore σ μ) (peerId : ℕ) : AppendEntriesArgs :=
  core.appendEntriesArgs peerId []

/-! ### Answers handled in the node layer -/

/-- The step-down written out in `raft_node.rs`: the fields change, the storage does not. -/
def stepDownInMemory (core : RaftCore σ μ) (term : ℕ) : RaftCore σ μ :=
  { core with currentTerm := term, state := .follower, votedFor := none }

/-- `send_heartbeat`, on the answer to an InstallSnapshot request. -/
def handleInstallSnapshotResult (core : RaftCore σ μ) (peerId lastIncludedIndex : ℕ) :
    InstallSnapshotResult → RaftCore σ μ
  | .success _ => { core with
      nextIndex := core.nextIndex.insert peerId (lastIncludedIndex + 1)
      matchIndex := core.matchIndex.insert peerId lastIncludedIndex }
  | .failed term _ => if term > core.currentTerm then core.stepDownInMemory term else core

/-- `confirm_leadership`, on one answer: the core, and whether the node steps down. -/
def handleConfirmResult (core : RaftCore σ μ) (result : AppendEntriesResult) :
    RaftCore σ μ × Bool :=
  if result.term > core.currentTerm then (core.stepDownInMemory result.term, true)
  else (core, false)

end RaftCore

/-- The index that `send_heartbeat` remembers for an AppendEntries request: its last entry's, or
`0` if it carries none. -/
def AppendEntriesArgs.lastEntryIndex (args : AppendEntriesArgs) : ℕ :=
  match args.entries.getLast? with
  | some entry => entry.index
  | none => 0

end RaftVibe
