/-
**The Raft core**: the synchronous, transport-agnostic state machine of `core/raft_core.rs`.

Every method of `RaftCore` is a function on an explicit state.  A method that may panic returns
`Except (Panic σ) _`: the panics of the source are failed `expect`s on storage or on the state
machine, and the explicit one of `apply_committed_entries`.  What survives a panic is the storage,
so the panic carries it.

The election timer (`last_heartbeat`) is left out: it only decides *when* the server loop calls
`start_election`, and nothing in the core reads it.

Main definitions:

* `RaftVibe.RaftCore` — the state of a node;
* `RaftVibe.RaftCore.new` — loading a node from its storage;
* `RaftVibe.RaftCore.handleRequestVote`, `handleAppendEntries`, `handleInstallSnapshot` — the RPC
  handlers;
* `RaftVibe.RaftCore.startElection`, `becomeLeader`, `appendLogEntry` — what a node does on its
  own;
* `RaftVibe.RaftCore.handleRequestVoteResult`, `handleAppendEntriesResult` — the reply handlers;
* `RaftVibe.RaftCore.applyCommittedEntries`, `takeSnapshot` — applying and compacting.
-/

import Mathlib.Data.List.AList
import RaftVibe.StateMachine
import RaftVibe.Storage

set_option relaxedAutoImplicit false
set_option autoImplicit false

namespace RaftVibe

/-- Why a node panics. -/
inductive PanicReason
  | storage (message : String) (error : StorageError)
  | restore (message : String) (error : String)
  | applyInSnapshot (index : ℕ)
deriving DecidableEq, Repr

/-- A panic, with the storage as it was left. -/
structure Panic (σ : Type) where
  reason : PanicReason
  storage : σ

/-- The maps `next_index` and `match_index`. -/
abbrev IndexMap := AList (fun _ : ℕ => ℕ)

/-- `map.get(&peer).copied().unwrap_or(default)`. -/
def IndexMap.getD (m : IndexMap) (peer default : ℕ) : ℕ := (m.lookup peer).getD default

/-- **The state of a node.**  The vector `log` holds the entries above the snapshot. -/
structure RaftCore (σ μ : Type) where
  storage : σ
  stateMachine : μ
  currentTerm : ℕ
  votedFor : Option ℕ
  log : List LogEntry
  snapshotLastIndex : ℕ
  snapshotLastTerm : ℕ
  commitIndex : ℕ
  lastApplied : ℕ
  nextIndex : IndexMap
  matchIndex : IndexMap
  id : ℕ
  state : RaftState
  peers : List ℕ
  votesReceived : List ℕ
  currentLeader : Option ℕ
  snapshotThreshold : ℕ

namespace RaftCore

variable {σ μ : Type} [Storage σ] [Snapshotable μ]

/-- `expect` on the result of a save. -/
def expectSave (message : String) : SaveResult σ → Except (Panic σ) σ
  | (.ok _, s) => .ok s
  | (.error e, s) => .error ⟨.storage message e, s⟩

/-- `expect` on the result of a load. -/
def expectLoad {α : Type} (storage : σ) (message : String) :
    Except StorageError α → Except (Panic σ) α
  | .ok a => .ok a
  | .error e => .error ⟨.storage message e, storage⟩

/-- `expect` on the result of restoring the state machine. -/
def expectRestore (storage : σ) (message : String) : Except String μ → Except (Panic σ) μ
  | .ok m => .ok m
  | .error e => .error ⟨.restore message e, storage⟩

/-- The state machine a node starts with: restored from the snapshot if there is one. -/
def restoreLoaded (storage : σ) (stateMachine : μ) : Option Snapshot → Except (Panic σ) μ
  | some snapshot =>
      expectRestore storage "failed to restore state machine from snapshot"
        (Snapshotable.restore stateMachine snapshot.data)
  | none => .ok stateMachine

/-- Load a node from its storage.  The state machine is restored from the snapshot if there is
one; everything volatile starts anew. -/
def new (id : ℕ) (peers : List ℕ) (storage : σ) (stateMachine : μ) :
    Except (Panic σ) (RaftCore σ μ) := do
  let currentTerm ← expectLoad storage "failed to load term from storage" (Storage.loadTerm storage)
  let votedFor ← expectLoad storage "failed to load voted_for from storage"
    (Storage.loadVotedFor storage)
  let log ← expectLoad storage "failed to load log from storage" (Storage.loadLog storage)
  let snapshot ← expectLoad storage "failed to load snapshot from storage"
    (Storage.loadSnapshot storage)
  let stateMachine ← restoreLoaded storage stateMachine snapshot
  let (snapshotLastIndex, snapshotLastTerm) := match snapshot with
    | some snapshot => (snapshot.metadata.lastIncludedIndex, snapshot.metadata.lastIncludedTerm)
    | none => (0, 0)
  return {
    storage, stateMachine, currentTerm, votedFor, log, snapshotLastIndex, snapshotLastTerm
    commitIndex := snapshotLastIndex
    lastApplied := snapshotLastIndex
    nextIndex := ∅
    matchIndex := ∅
    id
    state := .follower
    peers
    votesReceived := []
    currentLeader := none
    snapshotThreshold := 1000 }

/-- Set the snapshot threshold; `0` disables automatic snapshots. -/
def setSnapshotThreshold (core : RaftCore σ μ) (threshold : ℕ) : RaftCore σ μ :=
  { core with snapshotThreshold := threshold }

/-! ### Persistence helpers -/

/-- Update `current_term` and persist it. -/
def setTerm (core : RaftCore σ μ) (term : ℕ) : Except (Panic σ) (RaftCore σ μ) := do
  let storage ← expectSave "failed to persist term" (Storage.saveTerm core.storage term)
  return { core with currentTerm := term, storage }

/-- Update `voted_for` and persist it. -/
def setVotedFor (core : RaftCore σ μ) (votedFor : Option ℕ) :
    Except (Panic σ) (RaftCore σ μ) := do
  let storage ← expectSave "failed to persist voted_for" (Storage.saveVotedFor core.storage votedFor)
  return { core with votedFor, storage }

/-- Update the term and forget the vote: two saves, in this order. -/
def updateTerm (core : RaftCore σ μ) (newTerm : ℕ) : Except (Panic σ) (RaftCore σ μ) := do
  let core ← core.setTerm newTerm
  core.setVotedFor none

/-- The step-down of the handlers: a term above `current_term` is adopted as a follower. -/
def observeTerm (core : RaftCore σ μ) (term : ℕ) : Except (Panic σ) (RaftCore σ μ) :=
  if term > core.currentTerm then do
    let core ← core.updateTerm term
    return { core with state := .follower }
  else .ok core

/-- Append a single entry to storage and to the log. -/
def persistLogEntry (core : RaftCore σ μ) (entry : LogEntry) :
    Except (Panic σ) (RaftCore σ μ) := do
  let storage ← expectSave "failed to persist log entry"
    (Storage.appendLogEntries core.storage [entry])
  return { core with log := core.log ++ [entry], storage }

/-- Truncate the log from an index on.  The position in the vector is computed as
`from_index - 1`, which is the position of that entry only when there is no snapshot. -/
def persistTruncateLog (core : RaftCore σ μ) (fromIndex : ℕ) :
    Except (Panic σ) (RaftCore σ μ) :=
  let truncatePos := fromIndex - 1
  if truncatePos < core.log.length then do
    let storage ← expectSave "failed to truncate log" (Storage.truncateLog core.storage fromIndex)
    return { core with log := core.log.take truncatePos, storage }
  else .ok core

/-! ### Reading the log -/

/-- The last log index, which is the snapshot's when the log is empty. -/
def lastLogIndex (core : RaftCore σ μ) : ℕ :=
  match core.log.getLast? with
  | none => core.snapshotLastIndex
  | some entry => entry.index

/-- The term of the last log entry, which is the snapshot's when the log is empty. -/
def lastLogTerm (core : RaftCore σ μ) : ℕ :=
  match core.log.getLast? with
  | none => core.snapshotLastTerm
  | some entry => entry.term

/-- The entry with the given index: `log[0]` is taken to have index `snapshot_last_index + 1`. -/
def getLogEntry (core : RaftCore σ μ) (index : ℕ) : Option LogEntry :=
  if index ≤ core.snapshotLastIndex then none
  else core.log[index - core.snapshotLastIndex - 1]?

/-- The first index with the given term, scanning backwards from an index. -/
def findFirstIndexForTerm (core : RaftCore σ μ) (term : ℕ) : ℕ → ℕ
  | 0 => 0
  | idx + 1 =>
      if idx + 1 > core.snapshotLastIndex + 1 then
        match core.getLogEntry idx with
        | some entry => if entry.term = term then core.findFirstIndexForTerm term idx else idx + 1
        | none => idx + 1
      else idx + 1

/-- The backward scan of `find_last_index_for_term`, on the reversed log. -/
def scanForTerm (term : ℕ) : List LogEntry → Option ℕ
  | [] => none
  | entry :: rest =>
      if entry.term = term then some entry.index
      else if entry.term < term then none
      else scanForTerm term rest

/-- The last index with the given term, the snapshot boundary included. -/
def findLastIndexForTerm (core : RaftCore σ μ) (term : ℕ) : Option ℕ :=
  match scanForTerm term core.log.reverse with
  | some index => some index
  | none =>
      if core.snapshotLastTerm = term ∧ core.snapshotLastIndex > 0 then
        some core.snapshotLastIndex
      else none

/-- Whether a candidate's log is at least as up to date as this one. -/
def isLogUpToDate (core : RaftCore σ μ) (candidateLastLogTerm candidateLastLogIndex : ℕ) : Bool :=
  candidateLastLogTerm > core.lastLogTerm ||
    (candidateLastLogTerm == core.lastLogTerm && candidateLastLogIndex ≥ core.lastLogIndex)

/-! ### Applying and compacting -/

/-- Take a snapshot up to `last_applied` and discard the entries it covers.  The steps are tried
in order; an error leaves behind what the steps before it have done. -/
def takeSnapshot (core : RaftCore σ μ) : RaftCore σ μ × Except String Unit :=
  if core.lastApplied = 0 then
    (core, .error "No entries applied yet, cannot snapshot")
  else if core.lastApplied ≤ core.snapshotLastIndex then
    (core, .error ("Already have snapshot up to index " ++ toString core.snapshotLastIndex ++
      ", last_applied is " ++ toString core.lastApplied))
  else
    match core.getLogEntry core.lastApplied with
    | none => (core, .error "Cannot find last_applied entry")
    | some entry =>
        match Snapshotable.snapshot core.stateMachine with
        | .error e => (core, .error e)
        | .ok data =>
            let snapshot : Snapshot := ⟨⟨core.lastApplied, entry.term⟩, data⟩
            match Storage.saveSnapshot core.storage snapshot with
            | (.error e, storage) =>
                ({ core with storage }, .error ("Failed to save snapshot: " ++ e.display))
            | (.ok _, storage) =>
                let core := { core with
                  storage
                  snapshotLastIndex := snapshot.metadata.lastIncludedIndex
                  snapshotLastTerm := snapshot.metadata.lastIncludedTerm }
                let keepFrom := core.snapshotLastIndex + 1
                match Storage.compactLog core.storage keepFrom with
                | (.error e, storage) =>
                    ({ core with storage }, .error ("Failed to compact log: " ++ e.display))
                | (.ok _, storage) =>
                    ({ core with
                        storage
                        log := core.log.filter fun e => e.index ≥ keepFrom }, .ok ())

/-- The loop of `apply_committed_entries`, run for `commit_index - last_applied` rounds. -/
def applyLoop : ℕ → RaftCore σ μ → List (ℕ × ApplyResult) →
    Except (Panic σ) (RaftCore σ μ × List (ℕ × ApplyResult))
  | 0, core, results => .ok (core, results)
  | n + 1, core, results =>
      let core := { core with lastApplied := core.lastApplied + 1 }
      match core.getLogEntry core.lastApplied with
      | some entry =>
          let (stateMachine, result) := StateMachine.apply core.stateMachine entry.command
          applyLoop n { core with stateMachine } (results ++ [(core.lastApplied, result)])
      | none => .error ⟨.applyInSnapshot core.lastApplied, core.storage⟩

/-- The automatic snapshot; an error is only printed. -/
def autoSnapshot (core : RaftCore σ μ) : RaftCore σ μ :=
  if core.snapshotThreshold > 0 then
    let entriesSinceSnapshot := core.lastApplied - core.snapshotLastIndex
    if entriesSinceSnapshot ≥ core.snapshotThreshold then core.takeSnapshot.1 else core
  else core

/-- Apply the committed entries to the state machine, then compact if it is time to. -/
def applyCommittedEntries (core : RaftCore σ μ) :
    Except (Panic σ) (RaftCore σ μ × List (ℕ × ApplyResult)) := do
  let (core, results) ← applyLoop (core.commitIndex - core.lastApplied) core []
  return (core.autoSnapshot, results)

/-! ### The RPC handlers -/

/-- Handle RequestVote RPC. -/
def handleRequestVote (core : RaftCore σ μ) (voteReq : RequestVoteArgs) :
    Except (Panic σ) (RaftCore σ μ × RequestVoteResult) :=
  if voteReq.term < core.currentTerm then
    .ok (core, { term := core.currentTerm, voteGranted := false })
  else do
    let core ← core.observeTerm voteReq.term
    if core.votedFor.isSome ∧ core.votedFor ≠ some voteReq.candidateId then
      return (core, { term := core.currentTerm, voteGranted := false })
    else if ¬ core.isLogUpToDate voteReq.lastLogTerm voteReq.lastLogIndex then
      return (core, { term := core.currentTerm, voteGranted := false })
    else
      let core ← core.setVotedFor (some voteReq.candidateId)
      return (core, { term := core.currentTerm, voteGranted := true })

/-- Apply the entries of an AppendEntries RPC one by one, truncating at the first conflict. -/
def applyEntries : List LogEntry → RaftCore σ μ → Except (Panic σ) (RaftCore σ μ)
  | [], core => .ok core
  | entry :: rest, core =>
      if entry.index ≤ core.snapshotLastIndex then applyEntries rest core
      else
        let entryIdx := entry.index - core.snapshotLastIndex - 1
        match core.log[entryIdx]? with
        | some existing =>
            if existing.term ≠ entry.term then do
              let core ← core.persistTruncateLog entry.index
              let core ← core.persistLogEntry entry
              applyEntries rest core
            else applyEntries rest core
        | none => do
            let core ← core.persistLogEntry entry
            applyEntries rest core

/-- What an AppendEntries RPC that passed the check on `prev_log_index` does: take the entries
over, then follow the leader's commit index up to the end of the log. -/
def acceptEntries (core : RaftCore σ μ) (appendReq : AppendEntriesArgs) :
    Except (Panic σ) (RaftCore σ μ) := do
  let core ← applyEntries appendReq.entries core
  if appendReq.leaderCommit > core.commitIndex then
    let core := { core with commitIndex := min appendReq.leaderCommit core.lastLogIndex }
    let (core, _) ← core.applyCommittedEntries
    return core
  else return core

/-- The reply of a follower to an AppendEntries RPC of a leader it recognises. -/
def appendReply (core : RaftCore σ μ) (leaderId : ℕ) (success : Bool)
    (conflictTerm conflictIndex : Option ℕ) : HandleAppendEntriesOutput :=
  { result := { term := core.currentTerm, success, conflictTerm, conflictIndex }
    leaderId := some leaderId }

/-- Handle AppendEntries RPC (heartbeat or log replication). -/
def handleAppendEntries (core : RaftCore σ μ) (appendReq : AppendEntriesArgs) :
    Except (Panic σ) (RaftCore σ μ × HandleAppendEntriesOutput) := do
  let core ← core.observeTerm appendReq.term
  if appendReq.term < core.currentTerm then
    return (core,
      { result := { term := core.currentTerm, success := false, conflictTerm := none,
                    conflictIndex := none }
        leaderId := none })
  else
    let core := { core with state := .follower, currentLeader := some appendReq.leaderId }
    let reply (core : RaftCore σ μ) := core.appendReply appendReq.leaderId
    if appendReq.prevLogIndex > 0 then
      if appendReq.prevLogIndex > core.lastLogIndex then
        return (core, reply core false none (some (core.lastLogIndex + 1)))
      else if appendReq.prevLogIndex = core.snapshotLastIndex then
        if appendReq.prevLogTerm ≠ core.snapshotLastTerm then
          return (core,
            reply core false (some core.snapshotLastTerm) (some core.snapshotLastIndex))
        else
          let core ← core.acceptEntries appendReq
          return (core, reply core true none none)
      else
        match core.getLogEntry appendReq.prevLogIndex with
        | some entry =>
            if entry.term ≠ appendReq.prevLogTerm then
              return (core, reply core false (some entry.term)
                (some (core.findFirstIndexForTerm entry.term appendReq.prevLogIndex)))
            else
              let core ← core.acceptEntries appendReq
              return (core, reply core true none none)
        | none =>
            return (core, reply core false none (some (core.snapshotLastIndex + 1)))
    else
      let core ← core.acceptEntries appendReq
      return (core, reply core true none none)

/-- Handle InstallSnapshot RPC.  A failed compaction of the stored log is ignored. -/
def handleInstallSnapshot (core : RaftCore σ μ) (args : InstallSnapshotArgs) :
    Except (Panic σ) (RaftCore σ μ × InstallSnapshotResult) :=
  if args.term < core.currentTerm then
    .ok (core, .failed core.currentTerm "stale term")
  else do
    let core ← core.observeTerm args.term
    let core := { core with currentLeader := some args.leaderId }
    if args.lastIncludedIndex ≤ core.snapshotLastIndex then
      return (core, .failed core.currentTerm ("snapshot too old: " ++
        toString args.lastIncludedIndex ++ " <= " ++ toString core.snapshotLastIndex))
    else
      let snapshot : Snapshot :=
        ⟨⟨args.lastIncludedIndex, args.lastIncludedTerm⟩, args.data⟩
      match Storage.saveSnapshot core.storage snapshot with
      | (.error e, storage) =>
          return ({ core with storage },
            .failed core.currentTerm ("failed to save snapshot: " ++ e.display))
      | (.ok _, storage) =>
          let core := { core with storage }
          let stateMachine ← expectRestore core.storage
            ("failed to restore state machine from snapshot - " ++
              "node is in inconsistent state")
            (Snapshotable.restore core.stateMachine args.data)
          let core := { core with
            stateMachine
            snapshotLastIndex := args.lastIncludedIndex
            snapshotLastTerm := args.lastIncludedTerm
            log := core.log.filter fun e => e.index > args.lastIncludedIndex
            storage := (Storage.compactLog core.storage (args.lastIncludedIndex + 1)).2
            commitIndex := max core.commitIndex args.lastIncludedIndex
            lastApplied := max core.lastApplied args.lastIncludedIndex }
          return (core, .success core.currentTerm)

/-! ### What a node does on its own -/

/-- Start a new election. -/
def startElection (core : RaftCore σ μ) : Except (Panic σ) (RaftCore σ μ) := do
  let core ← core.setTerm (core.currentTerm + 1)
  let core := { core with state := .candidate, currentLeader := none }
  let core ← core.setVotedFor (some core.id)
  return { core with votesReceived := [core.id] }

/-- Become leader: reset the bookkeeping for every peer, then append the no-op. -/
def becomeLeader (core : RaftCore σ μ) : Except (Panic σ) (RaftCore σ μ) :=
  let lastIndex := core.lastLogIndex
  let core := { core with
    state := .leader
    currentLeader := some core.id
    nextIndex := core.peers.foldl (fun m peer => m.insert peer (lastIndex + 1)) core.nextIndex
    matchIndex := core.peers.foldl (fun m peer => m.insert peer 0) core.matchIndex }
  core.persistLogEntry
    { term := core.currentTerm, index := core.lastLogIndex + 1, command := noopCommand }

/-- Validate a command using the state machine. -/
def validateCommand (core : RaftCore σ μ) (command : String) : Except String Unit :=
  StateMachine.validate core.stateMachine command

/-- Add a new log entry; only leaders do. -/
def appendLogEntry (core : RaftCore σ μ) (command : String) :
    Except (Panic σ) (RaftCore σ μ × Option LogEntry) :=
  if core.state ≠ .leader then .ok (core, none)
  else do
    let entry : LogEntry :=
      { term := core.currentTerm, index := core.lastLogIndex + 1, command }
    let core ← core.persistLogEntry entry
    return (core, some entry)

/-! ### The reply handlers -/

/-- Handle a RequestVote result; `true` if this node became leader. -/
def handleRequestVoteResult (core : RaftCore σ μ) (peerId : ℕ) (result : RequestVoteResult) :
    Except (Panic σ) (RaftCore σ μ × Bool) := do
  let core ← core.observeTerm result.term
  if core.state ≠ .candidate then return (core, false)
  else
    let core :=
      if result.voteGranted ∧ peerId ∉ core.votesReceived then
        { core with votesReceived := core.votesReceived ++ [peerId] }
      else core
    let totalNodes := 1 + core.peers.length
    let majority := totalNodes / 2 + 1
    if core.votesReceived.length ≥ majority then
      let core ← core.becomeLeader
      return (core, true)
    else return (core, false)

/-- The bookkeeping for a peer after an AppendEntries result: advance on success, back up along
the conflict hint on rejection, never forward. -/
def recordAppendResult (core : RaftCore σ μ) (peerId entryIndex : ℕ)
    (result : AppendEntriesResult) : RaftCore σ μ :=
  if result.success then
    if entryIndex > 0 then
      let currentMatch := core.matchIndex.getD peerId 0
      { core with
        matchIndex :=
          if entryIndex > currentMatch then core.matchIndex.insert peerId entryIndex
          else core.matchIndex
        nextIndex := core.nextIndex.insert peerId (entryIndex + 1) }
    else core
  else
    let newNext :=
      match result.conflictTerm with
      | some conflictTerm =>
          match core.findLastIndexForTerm conflictTerm with
          | some idx => idx + 1
          | none => result.conflictIndex.getD 1
      | none =>
          match result.conflictIndex with
          | some conflictIndex => conflictIndex
          | none => max (core.nextIndex.getD peerId 1 - 1) 1
    let currentNext := core.nextIndex.getD peerId 1
    let safeNext := min (max newNext 1) (max (currentNext - 1) 1)
    { core with nextIndex := core.nextIndex.insert peerId safeNext }

/-- How many nodes have replicated an entry, this one included. -/
def replicatedCount (core : RaftCore σ μ) (entryIndex : ℕ) : ℕ :=
  1 + core.matchIndex.entries.countP fun e => e.2 ≥ entryIndex

/-- Handle an AppendEntries result: the commit index if it advanced, and what applying gave. -/
def handleAppendEntriesResult (core : RaftCore σ μ) (peerId entryIndex : ℕ)
    (result : AppendEntriesResult) :
    Except (Panic σ) (RaftCore σ μ × Option ℕ × List (ℕ × ApplyResult)) := do
  let core ← core.observeTerm result.term
  if core.state ≠ .leader then return (core, none, [])
  else
    let core := core.recordAppendResult peerId entryIndex result
    if entryIndex = 0 then return (core, none, [])
    else if (core.getLogEntry entryIndex).map LogEntry.term ≠ some core.currentTerm then
      return (core, none, [])
    else
      let totalNodes := 1 + core.peers.length
      let majority := totalNodes / 2 + 1
      if core.replicatedCount entryIndex ≥ majority ∧ entryIndex > core.commitIndex then
        let core := { core with commitIndex := entryIndex }
        let (core, applyResults) ← core.applyCommittedEntries
        return (core, some entryIndex, applyResults)
      else return (core, none, [])

end RaftCore

end RaftVibe
