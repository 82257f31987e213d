/-
**The data of the Raft core: log entries, RPC arguments and results, snapshots.**

These are the plain data types of `core/raft_core.rs` and `core/snapshot.rs`.  Terms, indices and
node ids are `u64` in the source and natural numbers here.  A run of the cluster starts at term `0`
and index `0` and only counts up, so the top of the range, `u64Max`, is out of its reach.  It is not
where a single node is called with arbitrary arguments: there the results assume that no sum leaves
the range (`RaftVibe.Op.Fits`).  Byte vectors are lists of bytes.

Main definitions:

* `RaftVibe.u64Max` — the largest term and index;
* `RaftVibe.RaftState`, `RaftVibe.LogEntry` — the role of a node and an entry of its log;
* `RaftVibe.RequestVoteArgs`, `RaftVibe.AppendEntriesArgs`, `RaftVibe.InstallSnapshotArgs` and
  their results — the three RPCs;
* `RaftVibe.Snapshot` — a snapshot with its metadata.
-/

import Mathlib.Data.Nat.Notation

set_option relaxedAutoImplicit false
set_option autoImplicit false

namespace RaftVibe

/-- `u64::MAX`. -/
def u64Max : ℕ := 0xFFFFFFFFFFFFFFFF

/-- The command that leaders append on election. -/
def noopCommand : String := "NOOP"

/-- Raft node states. -/
inductive RaftState
  | follower
  | candidate
  | leader
deriving DecidableEq, Repr

/-- A single log entry; `index` is 1-based. -/
structure LogEntry where
  term : ℕ
  index : ℕ
  command : String
deriving DecidableEq, Repr

/-- RequestVote RPC arguments. -/
structure RequestVoteArgs where
  term : ℕ
  candidateId : ℕ
  lastLogIndex : ℕ
  lastLogTerm : ℕ
deriving DecidableEq, Repr

/-- RequestVote RPC results. -/
structure RequestVoteResult where
  term : ℕ
  voteGranted : Bool
deriving DecidableEq, Repr

/-- AppendEntries RPC arguments. -/
structure AppendEntriesArgs where
  term : ℕ
  leaderId : ℕ
  prevLogIndex : ℕ
  prevLogTerm : ℕ
  entries : List LogEntry
  leaderCommit : ℕ
deriving DecidableEq, Repr

/-- AppendEntries RPC results, with the two conflict hints. -/
structure AppendEntriesResult where
  term : ℕ
  success : Bool
  conflictTerm : Option ℕ
  conflictIndex : Option ℕ
deriving DecidableEq, Repr

/-- What handling an AppendEntries RPC produces: the reply, and the leader if one is recognised. -/
structure HandleAppendEntriesOutput where
  result : AppendEntriesResult
  leaderId : Option ℕ
deriving DecidableEq, Repr

/-- InstallSnapshot RPC arguments. -/
structure InstallSnapshotArgs where
  term : ℕ
  leaderId : ℕ
  lastIncludedIndex : ℕ
  lastIncludedTerm : ℕ
  data : List UInt8
deriving DecidableEq, Repr

/-- InstallSnapshot RPC results. -/
inductive InstallSnapshotResult
  | success (term : ℕ)
  | failed (term : ℕ) (reason : String)
deriving DecidableEq, Repr

/-- The term an InstallSnapshot reply carries. -/
def InstallSnapshotResult.term : InstallSnapshotResult → ℕ
  | success t => t
  | failed t _ => t

/-- What a snapshot covers. -/
structure SnapshotMetadata where
  lastIncludedIndex : ℕ
  lastIncludedTerm : ℕ
deriving DecidableEq, Repr

/-- A snapshot of the state machine at a point of the log. -/
structure Snapshot where
  metadata : SnapshotMetadata
  data : List UInt8
deriving DecidableEq, Repr

end RaftVibe
